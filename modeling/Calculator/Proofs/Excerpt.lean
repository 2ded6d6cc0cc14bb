import Calculator.Proofs.Acceptance
import Calculator.Proofs.Truncation
import Mathlib.Control.Monad.Basic

/-!
# Parts of a text

The span of a node delimits a piece of the text that is an expression by itself: it has the tokens
of the node, and the node as its tree, with spans that count from the start of the piece.

* `Scan.exists_excerpt`: the tokens between two places of a text are those of a piece of it.
* `Limits.located_of_parse`: the tree of an accepted text is that of its tokens, with their spans.
* `Limits.exists_parse_excerpt`: a node of an accepted text is the tree of a piece of it.
* `Limits.parse_excerpt`: this piece is what stands under the span of the node.
-/

namespace Calculator

open Text

/-! ## Spans that count from another place -/

section RelativeTo

variable (origin : Nat)

theorem Span.relativeTo_cover (a b : Span) :
    (a.cover b).relativeTo origin = (a.relativeTo origin).cover (b.relativeTo origin) := by
  simp only [relativeTo, cover, Span.mk.injEq]
  omega

theorem Expr.mapSpan_withSpan (f : Span → Span) (span : Span) (e : Expr) :
    (e.withSpan span).mapSpan f = (e.mapSpan f).withSpan (f span) := by
  cases e <;> rfl

open Grammar in
/-- A phrase that stands elsewhere is the same phrase. -/
theorem Grammar.Located.relativeTo {phrase : Phrase} {tokens : List Token} {e : Expr} {need : Nat}
    (h : Located phrase tokens e need) : Located phrase (tokens.map (Token.relativeTo origin))
      (e.mapSpan (Span.relativeTo origin)) need := by
  induction h with
  | number kind => exact .number kind
  | group open_kind close_kind _ ih =>
    rw [Expr.mapSpan_withSpan, List.map_cons, List.map_append]
    exact .group open_kind close_kind ih
  | @signed token tokens sign e need kind _ ih =>
    have h : Located .signed (token.relativeTo origin :: _) _ _ := .signed kind ih
    rw [Expr.span_mapSpan] at h
    rw [Expr.mapSpan, Span.relativeTo_cover]
    exact h
  | @binary token lefts rights op left right leftNeed rightNeed kind _ _ ihl ihr =>
    have h : Located (.ofOp op) (_ ++ token.relativeTo origin :: _) _ _ := .binary kind ihl ihr
    rw [Expr.span_mapSpan, Expr.span_mapSpan] at h
    rw [Expr.mapSpan, Span.relativeTo_cover, List.map_append, List.map_cons]
    exact h
  | ofPrimary _ ih => exact .ofPrimary ih
  | ofSigned _ ih => exact .ofSigned ih
  | ofFactor _ ih => exact .ofFactor ih
  | ofTerm _ ih => exact .ofTerm ih

end RelativeTo

/-! ## Pieces -/

/-- There is one piece of a text under a span. -/
theorem Span.Cuts.unique {span : Span} {text piece piece' : String} (h : span.Cuts text piece)
    (h' : span.Cuts text piece') : piece = piece' := by
  obtain ⟨front, back, htext, rfl⟩ := h
  obtain ⟨front', back', htext', hspan⟩ := h'
  obtain ⟨hstart, hstop⟩ := Span.mk.inj hspan
  have hlists := congrArg String.toList (htext.symm.trans htext')
  simp only [String.toList_append, List.append_assoc] at hlists
  simp only [← width_toList] at hstart hstop
  obtain ⟨-, hlists⟩ := append_inj_of_width hlists hstart
  exact String.toList_inj.mp (append_inj_of_width hlists (by omega)).1

namespace Scan

variable {offset stop : Nat} {cs rest : List Char} {text : String} {tokens : List Token}

/-- The tokens of a text follow each other. -/
theorem Reads.ordered (h : Reads offset cs tokens stop rest) :
    Grammar.Ordered tokens ∧ ∀ token ∈ tokens, offset ≤ token.span.start := by
  induction h with
  | done => exact ⟨⟨nofun, .nil⟩, nofun⟩
  | blank hblank _ ih =>
    exact ⟨ih.1, fun token hmem => Nat.le_of_add_right_le (ih.2 token hmem)⟩
  | @token offset stop cs chars cs' rest kind tokens hread _ ih =>
    refine ⟨⟨?_, List.pairwise_cons.mpr ⟨ih.2, ih.1.pairwise⟩⟩, ?_⟩
    · exact List.forall_mem_cons.mpr ⟨Nat.le_add_right .., ih.1.start_le_stop⟩
    · exact List.forall_mem_cons.mpr ⟨Nat.le_refl _,
        fun token hmem => Nat.le_of_add_right_le (ih.2 token hmem)⟩

/-- Some tokens of a text, and the span over them, divide it into three parts: each has its own
tokens, and stands where the one in front of it ends. -/
theorem Reads.parts {front middle back : List Token} {span : Span}
    (h : Reads 0 cs (front ++ (middle ++ back)) stop rest) (hspan : Grammar.Spans span middle) :
    ∃ before piece behind, cs = before ++ (piece ++ behind) ∧
      span = ⟨width before, width before + width piece⟩ ∧
      Reads 0 before front span.start [] ∧ Reads span.start piece middle span.stop [] ∧
      Reads span.stop behind back stop rest := by
  obtain ⟨first, hfirst, last, hlast, rfl, -⟩ := hspan
  obtain ⟨tokens, rfl⟩ := List.head?_eq_some_iff.mp hfirst
  obtain ⟨offset₁, cs₁, hfront, h₁⟩ := h.split
  obtain ⟨offset₂, cs₂, hmiddle, hback⟩ := h₁.split
  -- Blanks on both sides of the tokens in the middle belong to the parts outside.
  obtain ⟨cs₃, hblanks, hmiddle⟩ := hmiddle.skip
  obtain ⟨cs₄, hmiddle, hblanks'⟩ := hmiddle.trim hlast
  have hfront := hfront.append hblanks
  rw [List.append_nil] at hfront
  obtain ⟨before, rfl, hstart, hbefore⟩ := hfront.cut
  obtain ⟨piece, rfl, hstop, hpiece⟩ := hmiddle.cut
  refine ⟨before, piece, cs₄, rfl, ?_, hbefore, hpiece, hblanks'.append hback⟩
  rw [hstop, hstart, Nat.zero_add]

/-- The tokens between two places of a text are those of the piece between them, with offsets of
its own. -/
theorem exists_excerpt {front middle back : List Token} {span : Span}
    (h : Reads 0 text.toList (front ++ (middle ++ back)) stop rest)
    (hspan : Grammar.Spans span middle) : ∃ piece, span.Cuts text piece ∧
      Reads 0 piece.toList (middle.map (Token.relativeTo span.start)) (span.stop - span.start)
        [] := by
  obtain ⟨before, piece, behind, htext, heq, -, hpiece, -⟩ := h.parts hspan
  refine ⟨String.ofList piece, heq ▸ Span.cuts_of_toList htext, ?_⟩
  have hpiece := hpiece.relativeTo (Nat.le_refl _)
  rw [Nat.sub_self] at hpiece
  rw [String.toList_ofList]
  exact hpiece

end Scan

namespace Limits

open Grammar

variable {limits : Limits} {text : String} {tree part : Expr}

/-- The tree of an accepted text is that of its tokens, spans included. -/
theorem located_of_parse (h : limits.parse text = .ok tree) :
    ∃ need ≤ limits.nesting, Located .expression (Scan.ofText text).tokens tree need := by
  obtain ⟨need, hneed, hd⟩ := derives_of_parse h
  obtain ⟨located, -, hlocated⟩ := hd.exists_located
  have hparse := (parse_eq_ok_iff.mp h).2
  rw [hlocated.parse_eq hneed] at hparse
  obtain rfl := congrArg Prod.fst hparse
  exact ⟨need, hneed, hlocated⟩

/-- A phrase on the tokens of a text is its tree. -/
theorem parse_of_located {need stop : Nat} {tokens : List Token}
    (hreads : Scan.Reads 0 text.toList tokens stop [])
    (h : Located .expression tokens tree need) (hneed : need ≤ limits.nesting) :
    limits.parse text = .ok tree := by
  obtain ⟨rfl, hfault⟩ := Scan.ofText_of_reads hreads
  exact parse_eq_ok_iff.mpr ⟨hfault, h.parse_eq hneed _⟩

/-- A node of an accepted text is the tree of a piece of the text, under the same limits. -/
theorem exists_parse_excerpt (h : limits.parse text = .ok tree) (hpart : part ∈ tree.postorder) :
    part.SideBySide ∧ ∃ piece, part.span.Cuts text piece ∧
      limits.parse piece = .ok (part.mapSpan (Span.relativeTo part.span.start)) := by
  obtain ⟨need, hneed, hlocated⟩ := located_of_parse h
  obtain ⟨stop, rest, hreads, -⟩ := Scan.reads_ofText text
  obtain ⟨front, middle, back, h⟩ := hlocated.exists_hasPart hpart
  obtain ⟨need', hneed', hmiddle⟩ := h.located
  rw [h.tokens_eq] at hreads
  have hordered := hreads.ordered.1.sublist (show middle.Sublist _ by simp)
  obtain ⟨hspans, hside⟩ := hmiddle.spans hordered
  obtain ⟨piece, hcuts, hpiece⟩ := Scan.exists_excerpt hreads hspans
  exact ⟨hside, piece, hcuts, parse_of_located hpiece (hmiddle.relativeTo _)
    (Nat.le_trans hneed' hneed)⟩

/-- Spans are faithful. Under the span of any node in the tree of an accepted text stands a piece
that is accepted under the same limits; its tree is the node, with spans that count from the start
of the piece. In every node, the operator stands between the operands, and all of them within the
span of the node. -/
theorem parse_excerpt (limits : Limits) (text : String) (tree : Expr)
    (h : limits.parse text = .ok tree) :
    ∀ part ∈ tree.postorder, part.SideBySide ∧ (∃ piece, part.span.Cuts text piece) ∧
      ∀ piece, part.span.Cuts text piece →
        limits.parse piece = .ok (part.mapSpan (Span.relativeTo part.span.start)) := by
  intro part hpart
  obtain ⟨hside, piece, hcuts, hparse⟩ := exists_parse_excerpt h hpart
  refine ⟨hside, ⟨piece, hcuts⟩, fun piece' hcuts' => ?_⟩
  obtain rfl := hcuts.unique hcuts'
  exact hparse

/-- The span of a group takes in its parentheses. -/
theorem parse_excerpt_group :
    let group : Expr := .signed .minus (.number "1" ⟨4, 5⟩) ⟨1, 7⟩
    let tree : Expr := .binary .mul ⟨7, 8⟩ group (.number "2" ⟨9, 10⟩) ⟨1, 10⟩
    ({ nesting := 3 } : Limits).parse " (- 1 )* 2" = .ok tree ∧ group ∈ tree.postorder ∧
      group.span.Cuts " (- 1 )* 2" "(- 1 )" ∧ ({ nesting := 3 } : Limits).parse "(- 1 )" =
        .ok (.signed .minus (.number "1" ⟨3, 4⟩) ⟨0, 6⟩) := by
  intro group tree
  have hparse : ({ nesting := 3 } : Limits).parse " (- 1 )* 2" = .ok tree := by decide +kernel
  have hgroup : group ∈ tree.postorder := by decide
  have hcuts : group.span.Cuts " (- 1 )* 2" "(- 1 )" := ⟨" ", "* 2", by decide, by decide⟩
  exact ⟨hparse, hgroup, hcuts, (parse_excerpt _ _ tree hparse group hgroup).2.2 _ hcuts⟩

end Limits

end Calculator
