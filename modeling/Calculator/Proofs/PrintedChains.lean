import Calculator.Expr.Printer

/-!
# Printed chains

A chain is written in a loop: all parentheses that open, the leftmost operand, and then the links.
Plain recursion writes the parentheses of each node around its own text. The two agree because a
link that is put on the outside of a spine sets what the spine below it has to reach, and opens its
parenthesis in front of all others.

* `Expr.spineText`: what the loop writes for a spine. `Expr.spineText_concat` is its law for one
  more link, and `Expr.spineText_leftSpine` the text of a whole tree.
* `Expr.toList_write`: what is written behind a text is that of plain recursion.
-/

namespace Calculator.Expr

variable (level : Nat) (links : List Link) (link : Link)

/-! ## Spines -/

theorem length_wraps : (wraps level links).length = links.length := by
  cases links with
  | nil => rfl
  | cons link links => simp [wraps]

/-- A further link asks the spine below it for its own level on the left. -/
theorem wraps_concat : wraps level (links ++ [link]) =
    wraps link.op.leftLevel links ++ [decide (link.op.precedence < level)] := by
  cases links with
  | nil => rfl
  | cons inner links =>
    have hlevels : ((inner :: links) ++ [link]).tail.map (·.op.leftLevel) ++ [level] =
        ((inner :: links).tail.map (·.op.leftLevel) ++ [link.op.leftLevel]) ++ [level] := by
      simp
    rw [wraps, hlevels, List.zipWith_append (by simp)]
    rfl

theorem innermostLevel_concat :
    innermostLevel level (links ++ [link]) = innermostLevel link.op.leftLevel links := by
  cases links <;> rfl

/-- What is written for one link: its operator, its right operand, and the parenthesis that closes
behind it if `wrap` holds. -/
def linkText (wrap : Bool) (link : Link) : List Char :=
  ' ' :: link.op.symbol.toList ++ ' ' :: link.right.printAt link.op.rightLevel ++
    (if wrap then [')'] else [])

/-- What is written for a spine at a place that asks for precedence `level`. -/
def spineText (leftmost : Expr) : List Char :=
  List.replicate ((wraps level links).count true) '(' ++
    (leftmost.printAt (innermostLevel level links) ++
      (links.zip (wraps level links)).flatMap fun (link, wrap) => linkText wrap link)

/-- The parentheses of the outermost link stand around the text of the spine below it and its
own. -/
theorem spineText_concat (leftmost : Expr) : spineText level (links ++ [link]) leftmost =
    parenthesizeIf (link.op.precedence < level) (spineText link.op.leftLevel links leftmost ++
      ' ' :: link.op.symbol.toList ++ ' ' :: link.right.printAt link.op.rightLevel) := by
  have hzip : (links ++ [link]).zip (wraps level (links ++ [link])) =
      links.zip (wraps link.op.leftLevel links) ++
        [(link, decide (link.op.precedence < level))] := by
    rw [wraps_concat, List.zip_append (length_wraps _ links).symm]
    rfl
  unfold spineText
  rw [hzip, wraps_concat, innermostLevel_concat]
  by_cases hwrap : link.op.precedence < level <;>
    simp [hwrap, parenthesizeIf, linkText, List.replicate_succ]

/-- The text of a tree is that of its spine. -/
theorem spineText_leftSpine (e : Expr) :
    spineText level e.leftSpine.2 e.leftSpine.1 = e.printAt level := by
  induction e generalizing level with
  | number | signed | invalid => exact List.append_nil _
  | binary op opSpan left right span ihl ihr =>
    rw [leftSpine_binary, spineText_concat, ihl, printAt]

/-! ## The loop -/

theorem toList_pushn (out : String) (c : Char) (n : Nat) :
    (out.pushn c n).toList = out.toList ++ List.replicate n c := by
  rw [String.pushn_eq_repeat_push]
  induction n with
  | zero => exact (List.append_nil _).symm
  | succ n ih => rw [Nat.repeat, String.toList_push, ih, List.replicate_succ', List.append_assoc]

theorem toList_closeIf (wrap : Bool) (out : String) :
    (closeIf wrap out).toList = out.toList ++ if wrap then [')'] else [] := by
  cases wrap with
  | false => exact (List.append_nil _).symm
  | true => exact String.toList_push _

/-- The loop writes the links one after the other, if it writes their right operands as plain
recursion does. -/
theorem toList_foldl_links {links : List Link} (wraps : List Bool) (start : String)
    (h : ∀ link ∈ links, ∀ out,
      (link.right.write link.op.rightLevel (out ++ " " ++ link.op.symbol ++ " ")).toList =
        (out ++ " " ++ link.op.symbol ++ " ").toList ++ link.right.printAt link.op.rightLevel) :
    ((links.zip wraps).foldl (fun out (link, wrap) => closeIf wrap
      (link.right.write link.op.rightLevel (out ++ " " ++ link.op.symbol ++ " "))) start).toList =
      start.toList ++ (links.zip wraps).flatMap fun (link, wrap) => linkText wrap link := by
  induction links generalizing wraps start with
  | nil => exact (List.append_nil _).symm
  | cons link links ih =>
    cases wraps with
    | nil => exact (List.append_nil _).symm
    | cons wrap wraps =>
      rw [List.zip_cons_cons, List.foldl_cons, List.flatMap_cons,
        ih wraps _ fun link' hmem => h link' (List.mem_cons_of_mem _ hmem), toList_closeIf,
        h link List.mem_cons_self]
      simp [linkText]

/-- What is written behind `out` is the text of plain recursion. -/
theorem toList_write (out : String) (e : Expr) :
    (e.write level out).toList = out.toList ++ e.printAt level := by
  fun_induction write level out e with
  | case1 level out text span => exact String.toList_append
  | case2 level out span => rw [String.toList_append, String.toList_ofList, printAt]
  | case3 level out sign operand span wrap ih =>
    rw [toList_closeIf, ih, String.toList_append, toList_pushn, printAt]
    show _ = out.toList ++ parenthesizeIf wrap _
    cases wrap <;> simp [parenthesizeIf]
  | case4 level out op opSpan left right span links wraps start ihstart ihlinks =>
    have hattach : (links.attach.zip wraps).map (Prod.map Subtype.val id) = links.zip wraps := by
      rw [← List.zip_map_left, List.attach_map_subtype_val]
    have hlinks := toList_foldl_links wraps start fun link hmem out => ihlinks out ⟨link, hmem⟩
    rw [← hattach, List.foldl_map] at hlinks
    refine hlinks.trans ?_
    rw [hattach, ihstart, toList_pushn, List.append_assoc, List.append_assoc]
    exact congrArg (out.toList ++ ·) (spineText_leftSpine level _)

/-- The loop over left spines writes the same text as plain recursion, behind any text and for
every precedence that the place of the tree asks for. -/
theorem write_eq_append_printAt (level : Nat) (out : String) (e : Expr) :
    e.write level out = out ++ String.ofList (e.printAt level) := by
  rw [← String.toList_inj, toList_write, String.toList_append, String.toList_ofList]

end Calculator.Expr
