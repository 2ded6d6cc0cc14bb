import Calculator.Expr.Cursor

/-!
# Matching parentheses

Which parenthesis closes a group is a matter of the tokens alone: between the two, parentheses are
in balance. The parser looks for it by counting the groups that are open, and the two agree.

* `Token.Balanced`: lists of tokens in which each group is closed, and nothing else is.
* `Token.Closes`: the parenthesis at one place closes the group that opens at another one.
* `Token.openGroups`: the number of groups open behind some tokens; `Token.balanced_iff` joins the
  two views.
* `Cursor.skipGroup_of_close` and `Cursor.skipGroup_of_open`: the way past a group leads behind
  the parenthesis that closes it, or to the end if there is none.
-/

namespace Calculator

namespace Token

/-- In these tokens every group that is opened is closed, and only those are. -/
inductive Balanced : List Token → Prop
  | nil : Balanced []
  | other {token : Token} {tokens : List Token} (not_open : token.kind ≠ .openParen)
      (not_close : token.kind ≠ .closeParen) (behind : Balanced tokens) :
      Balanced (token :: tokens)
  | group {opened closed : Token} {inside tokens : List Token}
      (open_kind : opened.kind = .openParen) (close_kind : closed.kind = .closeParen)
      (within : Balanced inside) (behind : Balanced tokens) :
      Balanced (opened :: (inside ++ closed :: tokens))

/-- The parenthesis at `j` closes the group that opens at `i`: between the two, parentheses are in
balance. -/
def Closes (tokens : List Token) (i j : Nat) : Prop :=
  ∃ opened inside closed back, tokens.drop i = opened :: (inside ++ closed :: back) ∧
    opened.kind = .openParen ∧ closed.kind = .closeParen ∧ Balanced inside ∧
    j = i + inside.length + 1

/-- The number of groups open behind a token, if `depth` are open in front of it; none if the token
closes a group that is not open. -/
def openBehind (depth : Nat) (token : Token) : Option Nat :=
  match token.kind, depth with
  | .openParen, _ => some (depth + 1)
  | .closeParen, 0 => none
  | .closeParen, depth + 1 => some depth
  | _, _ => some depth

/-- The number of groups open behind the tokens, if `depth` are open in front of them; none if they
close a group that is not open. -/
def openGroups (depth : Nat) (tokens : List Token) : Option Nat := tokens.foldlM openBehind depth

variable {depth depth' : Nat} {token closed closed' : Token}
  {tokens tokens' inside inside' back back' : List Token}

/-! ## Counting open groups -/

theorem openBehind_of_openParen (h : token.kind = .openParen) :
    openBehind depth token = some (depth + 1) := by
  simp only [openBehind, h]

theorem openBehind_zero_of_closeParen (h : token.kind = .closeParen) :
    openBehind 0 token = none := by
  simp only [openBehind, h]

theorem openBehind_succ_of_closeParen (h : token.kind = .closeParen) :
    openBehind (depth + 1) token = some depth := by
  simp only [openBehind, h]

theorem openBehind_of_ne (hopen : token.kind ≠ .openParen) (hclose : token.kind ≠ .closeParen) :
    openBehind depth token = some depth := by
  unfold openBehind
  split <;> first | contradiction | rfl

theorem openGroups_cons :
    openGroups depth (token :: tokens) = (openBehind depth token).bind (openGroups · tokens) :=
  List.foldlM_cons

theorem openGroups_append :
    openGroups depth (tokens ++ tokens') = (openGroups depth tokens).bind (openGroups · tokens') :=
  List.foldlM_append

theorem openGroups_append_of_eq (h : openGroups depth tokens = some depth') :
    openGroups depth (tokens ++ tokens') = openGroups depth' tokens' := by
  rw [openGroups_append, h, Option.bind_some]

/-- A token opens a group, closes one, or leaves the groups as they are. -/
theorem openBehind_cases (h : openBehind depth token = some depth') :
    (token.kind = .openParen ∧ depth' = depth + 1) ∨
    (token.kind = .closeParen ∧ depth = depth' + 1) ∨
    (token.kind ≠ .openParen ∧ token.kind ≠ .closeParen ∧ depth' = depth) := by
  by_cases hopen : token.kind = .openParen
  · rw [openBehind_of_openParen hopen] at h
    exact .inl ⟨hopen, (Option.some.inj h).symm⟩
  · by_cases hclose : token.kind = .closeParen
    · cases depth with
      | zero =>
        rw [openBehind_zero_of_closeParen hclose] at h
        nomatch h
      | succ depth =>
        rw [openBehind_succ_of_closeParen hclose] at h
        exact .inr (.inl ⟨hclose, congrArg (· + 1) (Option.some.inj h)⟩)
    · rw [openBehind_of_ne hopen hclose] at h
      exact .inr (.inr ⟨hopen, hclose, (Option.some.inj h).symm⟩)

/-- Groups that are open in front stay open. -/
theorem openBehind_add (h : openBehind depth token = some depth') (more : Nat) :
    openBehind (depth + more) token = some (depth' + more) := by
  rcases openBehind_cases h with ⟨hopen, rfl⟩ | ⟨hclose, rfl⟩ | ⟨hopen, hclose, rfl⟩
  · rw [openBehind_of_openParen hopen, Nat.add_right_comm]
  · rw [Nat.add_right_comm, openBehind_succ_of_closeParen hclose]
  · rw [openBehind_of_ne hopen hclose]

theorem openGroups_add (h : openGroups depth tokens = some depth') (more : Nat) :
    openGroups (depth + more) tokens = some (depth' + more) := by
  induction tokens generalizing depth with
  | nil =>
    cases h
    rfl
  | cons token tokens ih =>
    rw [openGroups_cons] at h ⊢
    obtain ⟨behind, htoken, hbehind⟩ := Option.bind_eq_some_iff.mp h
    rw [openBehind_add htoken more, Option.bind_some, ih hbehind]

/-- Tokens close a group that is open in front of them, or else can be counted. -/
theorem exists_close_or_open (depth : Nat) (tokens : List Token) :
    (∃ inside closed back, tokens = inside ++ closed :: back ∧ closed.kind = .closeParen ∧
      openGroups depth inside = some 0) ∨ ∃ depth', openGroups depth tokens = some depth' := by
  induction tokens generalizing depth with
  | nil => exact .inr ⟨depth, rfl⟩
  | cons token tokens ih =>
    cases htoken : openBehind depth token with
    | none =>
      obtain ⟨hclose, rfl⟩ : token.kind = .closeParen ∧ depth = 0 := by
        unfold openBehind at htoken
        split at htoken <;> simp_all
      exact .inl ⟨[], token, tokens, rfl, hclose, rfl⟩
    | some behind =>
      rcases ih behind with ⟨inside, closed, back, rfl, hclose, hinside⟩ | ⟨depth', hdepth⟩
      · refine .inl ⟨token :: inside, closed, back, rfl, hclose, ?_⟩
        rw [openGroups_cons, htoken, Option.bind_some, hinside]
      · exact .inr ⟨depth', by rw [openGroups_cons, htoken, Option.bind_some, hdepth]⟩

/-! ## Balance -/

/-- Behind tokens in balance, as many groups are open as in front of them. -/
theorem Balanced.openGroups_eq (h : Balanced tokens) : openGroups depth tokens = some depth := by
  induction h generalizing depth with
  | nil => rfl
  | other not_open not_close _ ih =>
    rw [openGroups_cons, openBehind_of_ne not_open not_close, Option.bind_some, ih]
  | group open_kind close_kind _ _ ihw ihb =>
    rw [openGroups_cons, openBehind_of_openParen open_kind, Option.bind_some,
      openGroups_append_of_eq ihw, openGroups_cons, openBehind_succ_of_closeParen close_kind,
      Option.bind_some, ihb]

theorem balanced_of_openGroups (h : openGroups 0 tokens = some 0) : Balanced tokens := by
  induction hn : tokens.length using Nat.strongRecOn generalizing tokens with
  | ind n ih =>
    subst hn
    cases tokens with
    | nil => exact .nil
    | cons token tokens =>
      by_cases hopen : token.kind = .openParen
      · rw [openGroups_cons, openBehind_of_openParen hopen, Option.bind_some] at h
        rcases exists_close_or_open 0 tokens with
          ⟨inside, closed, back, rfl, hclose, hinside⟩ | ⟨depth, hdepth⟩
        · rw [openGroups_append_of_eq (openGroups_add hinside 1), openGroups_cons,
            openBehind_succ_of_closeParen hclose, Option.bind_some] at h
          have hlength : (token :: (inside ++ closed :: back)).length =
              inside.length + back.length + 2 := by
            simp only [List.length_cons, List.length_append]
            omega
          exact .group hopen hclose (ih inside.length (by omega) hinside rfl)
            (ih back.length (by omega) h rfl)
        -- The group would be open at the end.
        · nomatch (openGroups_add hdepth 1).symm.trans h
      · by_cases hclose : token.kind = .closeParen
        · rw [openGroups_cons, openBehind_zero_of_closeParen hclose] at h
          nomatch h
        · rw [openGroups_cons, openBehind_of_ne hopen hclose, Option.bind_some] at h
          exact .other hopen hclose (ih tokens.length (Nat.lt_succ_self _) h rfl)

/-- Tokens are in balance if no group is open behind them and none is closed too much. -/
theorem balanced_iff : Balanced tokens ↔ openGroups 0 tokens = some 0 :=
  ⟨Balanced.openGroups_eq, balanced_of_openGroups⟩

theorem Balanced.append (h : Balanced tokens) (h' : Balanced tokens') :
    Balanced (tokens ++ tokens') := by
  rw [balanced_iff, openGroups_append_of_eq h.openGroups_eq, h'.openGroups_eq]

/-- Behind tokens in balance, a parenthesis closes too much. -/
theorem openGroups_stray (h : Balanced inside) (hclose : closed.kind = .closeParen) :
    openGroups 0 (inside ++ closed :: back) = none := by
  rw [openGroups_append_of_eq h.openGroups_eq, openGroups_cons,
    openBehind_zero_of_closeParen hclose, Option.bind_none]

/-- Tokens in balance that go on behind others in balance do not go on with a parenthesis that
closes. -/
theorem Balanced.eq_nil_of_append (h : Balanced inside) (h' : Balanced (inside ++ tokens))
    (hclose : closed.kind = .closeParen) (heq : closed :: back = tokens ++ tokens') :
    tokens = [] := by
  cases tokens with
  | nil => rfl
  | cons token tokens =>
    obtain ⟨rfl, -⟩ := List.cons_eq_cons.mp heq
    exact nomatch h'.openGroups_eq.symm.trans (openGroups_stray h hclose)

/-- The first parenthesis that closes too much stands at one place only. -/
theorem Balanced.eq_of_append_eq (h : Balanced inside) (h' : Balanced inside')
    (hclose : closed.kind = .closeParen) (hclose' : closed'.kind = .closeParen)
    (heq : inside ++ closed :: back = inside' ++ closed' :: back') : inside = inside' := by
  rcases List.append_eq_append_iff.mp heq with ⟨more, rfl, hmore⟩ | ⟨more, rfl, hmore⟩
  · rw [h.eq_nil_of_append h' hclose hmore, List.append_nil]
  · rw [h'.eq_nil_of_append h hclose' hmore, List.append_nil]

/-- One parenthesis at the most closes a group. -/
theorem Closes.unique {i j j' : Nat} (h : Closes tokens i j) (h' : Closes tokens i j') :
    j = j' := by
  obtain ⟨opened, inside, closed, back, htokens, -, hclose, hinside, rfl⟩ := h
  obtain ⟨opened', inside', closed', back', htokens', -, hclose', hinside', rfl⟩ := h'
  obtain ⟨-, heq⟩ := List.cons_eq_cons.mp (htokens.symm.trans htokens')
  rw [hinside.eq_of_append_eq hinside' hclose hclose' heq]

theorem closes_of_drop {opened : Token} {i : Nat} (open_kind : opened.kind = .openParen)
    (close_kind : closed.kind = .closeParen) (h : Balanced inside)
    (htokens : tokens.drop i = opened :: (inside ++ closed :: back)) :
    Closes tokens i (i + inside.length + 1) ∧
      tokens.drop (i + inside.length + 1) = closed :: back := by
  refine ⟨⟨opened, inside, closed, back, htokens, open_kind, close_kind, h, rfl⟩, ?_⟩
  rw [Nat.add_assoc, ← List.drop_drop, htokens, List.drop_succ_cons, List.drop_left]

/-- A group that is open at the end is not closed. -/
theorem not_closes_of_open {opened : Token} {i j : Nat}
    (htokens : tokens.drop i = opened :: tokens') (hdepth : openGroups 0 tokens' = some depth) :
    ¬ Closes tokens i j := by
  rintro ⟨opened', inside, closed, back, heq, -, hclose, hinside, -⟩
  obtain ⟨-, rfl⟩ := List.cons_eq_cons.mp (htokens.symm.trans heq)
  nomatch hdepth.symm.trans (openGroups_stray hinside hclose)

end Token

namespace Cursor

open Token

variable {depth depth' : Nat} {token closed : Token} {tokens inside back : List Token}

/-- The way past a group counts the groups that are open. -/
theorem skipGroup_cons (h : openBehind depth token = some depth') (last : Nat) :
    skipGroup depth last (token :: tokens) = skipGroup depth' token.span.stop tokens := by
  rcases openBehind_cases h with ⟨hkind, rfl⟩ | ⟨hkind, rfl⟩ | ⟨hopen, hclose, rfl⟩
  · cases depth <;> simp only [skipGroup, hkind]
  · simp only [skipGroup, hkind]
  · cases hkind : token.kind <;> simp_all only [skipGroup, ne_eq, not_true_eq_false]

/-- The way past a group leads behind the first parenthesis that closes too much. -/
theorem skipGroup_of_close (h : openGroups depth inside = some 0)
    (hclose : closed.kind = .closeParen) (last : Nat) :
    skipGroup depth last (inside ++ closed :: back) = (back, closed.span.stop) := by
  induction inside generalizing depth last with
  | nil =>
    cases h
    simp only [List.nil_append, skipGroup, hclose]
  | cons token inside ih =>
    rw [openGroups_cons] at h
    obtain ⟨behind, htoken, hbehind⟩ := Option.bind_eq_some_iff.mp h
    rw [List.cons_append, skipGroup_cons htoken, ih hbehind]

/-- Where no parenthesis closes too much, the way past a group leads to the end. -/
theorem skipGroup_of_open (h : openGroups depth tokens = some depth') (last : Nat) :
    (skipGroup depth last tokens).1 = [] := by
  induction tokens generalizing depth last with
  | nil => rfl
  | cons token tokens ih =>
    rw [openGroups_cons] at h
    obtain ⟨behind, htoken, hbehind⟩ := Option.bind_eq_some_iff.mp h
    rw [skipGroup_cons htoken, ih hbehind]

end Cursor

end Calculator
