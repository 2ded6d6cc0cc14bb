import Calculator.Proofs.Grammar.Strength

/-!
# Phrases and their spans

The grammar says which tree the tokens of a phrase have up to spans. `Grammar.Located` says which
spans the tree has: a number that of its token, a sign and an operator what they and their operands
cover, and a group the text from its first parenthesis to its last one.

* `Located.derives` and `Derives.exists_located`: a phrase of the grammar has a tree with spans.
* `HasPart`: a part of a tree is an expression of its own, and can be put in parentheses where it
  stands. `Located.exists_hasPart` says that every node is such a part.
* `Located.spans`: the span of a tree reaches from the first of its tokens to the last, and operands
  and operators stand side by side in it.
-/

namespace Calculator

namespace Expr

/-- The operator of the node stands between its operands, and all of them in the span of the
node. -/
def SideBySide : Expr → Prop
  | number .. | invalid .. => True
  | signed _ operand span => operand.span.Within span
  | binary _ opSpan left right span =>
    left.span.stop ≤ opSpan.start ∧ opSpan.stop ≤ right.span.start ∧
      left.span.Within span ∧ opSpan.Within span ∧ right.span.Within span

/-- What lies in the span of a node lies in every span around it. -/
theorem SideBySide.withSpan {e : Expr} {span : Span} (h : e.SideBySide)
    (hspan : e.span.Within span) : (e.withSpan span).SideBySide := by
  cases e with
  | number | invalid => trivial
  | signed => exact h.trans hspan
  | binary =>
    obtain ⟨hleft, hright, hl, ho, hr⟩ := h
    exact ⟨hleft, hright, hl.trans hspan, ho.trans hspan, hr.trans hspan⟩

/-- Another span changes the last node of a tree only. -/
theorem mem_postorder_withSpan {e part : Expr} {span : Span}
    (h : part ∈ (e.withSpan span).postorder) : part = e.withSpan span ∨ part ∈ e.postorder := by
  cases e with
  | number | invalid => exact .inl (List.mem_singleton.mp h)
  | signed =>
    rcases mem_postorder_signed.mp h with h | h
    · exact .inr (mem_postorder_signed.mpr (.inl h))
    · exact .inl h
  | binary =>
    rcases mem_postorder_binary.mp h with h | h | h
    · exact .inr (mem_postorder_binary.mpr (.inl h))
    · exact .inr (mem_postorder_binary.mpr (.inr (.inl h)))
    · exact .inl h

end Expr

namespace Grammar

/-- The tokens are a phrase of the kind, with this tree, and need so many levels. -/
inductive Located : Phrase → List Token → Expr → Nat → Prop where
  | number {token : Token} (kind : token.kind = .number) :
    Located .primary [token] (.number token.text token.span) 1
  | group {opened closed : Token} {tokens : List Token} {e : Expr} {need : Nat}
    (open_kind : opened.kind = .openParen) (close_kind : closed.kind = .closeParen)
    (inner : Located .expression tokens e need) :
    Located .primary (opened :: (tokens ++ [closed]))
      (e.withSpan ⟨opened.span.start, closed.span.stop⟩) (need + 1)
  | signed {token : Token} {tokens : List Token} {sign : Sign} {e : Expr} {need : Nat}
    (kind : token.kind.sign? = some sign) (operand : Located .signed tokens e need) :
    Located .signed (token :: tokens) (.signed sign e (token.span.cover e.span)) (need + 1)
  | binary {token : Token} {lefts rights : List Token} {op : BinaryOp} {left right : Expr}
    {leftNeed rightNeed : Nat} (kind : token.kind.binaryOp? = some op)
    (left_phrase : Located (.leftOf op) lefts left leftNeed)
    (right_phrase : Located (.rightOf op) rights right rightNeed) :
    Located (.ofOp op) (lefts ++ token :: rights)
      (.binary op token.span left right (left.span.cover right.span))
      (max leftNeed (rightNeed + 1))
  | ofPrimary {tokens : List Token} {e : Expr} {need : Nat} (h : Located .primary tokens e need) :
    Located .signed tokens e need
  | ofSigned {tokens : List Token} {e : Expr} {need : Nat} (h : Located .signed tokens e need) :
    Located .factor tokens e need
  | ofFactor {tokens : List Token} {e : Expr} {need : Nat} (h : Located .factor tokens e need) :
    Located .term tokens e need
  | ofTerm {tokens : List Token} {e : Expr} {need : Nat} (h : Located .term tokens e need) :
    Located .expression tokens e need

variable {phrase : Phrase} {tokens : List Token} {e : Expr} {need : Nat}

/-- Without its spans, the tree is that of the grammar. -/
theorem Located.derives (h : Located phrase tokens e need) : Derives phrase tokens e.bare need := by
  induction h with
  | number kind => exact .number kind
  | group open_kind close_kind _ ih =>
    rw [Expr.bare_withSpan]
    exact .group open_kind close_kind ih
  | signed kind _ ih => exact .signed kind ih
  | binary kind _ _ ihl ihr => exact .binary kind ihl ihr
  | ofPrimary _ ih => exact .ofPrimary ih
  | ofSigned _ ih => exact .ofSigned ih
  | ofFactor _ ih => exact .ofFactor ih
  | ofTerm _ ih => exact .ofTerm ih

/-- Every phrase of the grammar has a tree with spans. -/
theorem Derives.exists_located (h : Derives phrase tokens e need) :
    ∃ located : Expr, located.bare = e ∧ Located phrase tokens located need := by
  induction h with
  | number kind => exact ⟨_, rfl, .number kind⟩
  | group open_kind close_kind _ ih =>
    obtain ⟨e, rfl, h⟩ := ih
    exact ⟨_, Expr.bare_withSpan _ e, .group open_kind close_kind h⟩
  | signed kind _ ih =>
    obtain ⟨e, rfl, h⟩ := ih
    exact ⟨_, rfl, .signed kind h⟩
  | binary kind _ _ ihl ihr =>
    obtain ⟨left, rfl, hl⟩ := ihl
    obtain ⟨right, rfl, hr⟩ := ihr
    exact ⟨_, rfl, .binary kind hl hr⟩
  | ofPrimary _ ih =>
    obtain ⟨e, he, h⟩ := ih
    exact ⟨e, he, .ofPrimary h⟩
  | ofSigned _ ih =>
    obtain ⟨e, he, h⟩ := ih
    exact ⟨e, he, .ofSigned h⟩
  | ofFactor _ ih =>
    obtain ⟨e, he, h⟩ := ih
    exact ⟨e, he, .ofFactor h⟩
  | ofTerm _ ih =>
    obtain ⟨e, he, h⟩ := ih
    exact ⟨e, he, .ofTerm h⟩

/-- A phrase is an expression. -/
theorem Located.expression (h : Located phrase tokens e need) :
    Located .expression tokens e need := by
  cases phrase with
  | expression => exact h
  | term => exact .ofTerm h
  | factor => exact .ofTerm (.ofFactor h)
  | signed => exact .ofTerm (.ofFactor (.ofSigned h))
  | primary => exact .ofTerm (.ofFactor (.ofSigned (.ofPrimary h)))

/-! ## Parts -/

/-- In the tree of a phrase, the tokens between `front` and `back` are an expression with the tree
`part`. In parentheses they leave the tree as it is, and need one level more at the most. -/
structure HasPart (phrase : Phrase) (tokens : List Token) (e : Expr) (need : Nat) (part : Expr)
    (front middle back : List Token) : Prop where
  tokens_eq : tokens = front ++ (middle ++ back)
  located : ∃ need' ≤ need, Located .expression middle part need'
  enclosed : ∀ opened closed : Token, opened.kind = .openParen → closed.kind = .closeParen →
    ∃ need' ≤ need + 1, Derives phrase (front ++ opened :: (middle ++ closed :: back)) e.bare need'

/-- A tree is a part of itself. -/
theorem Located.hasPart_self (h : Located phrase tokens e need) :
    HasPart phrase tokens e need e [] tokens [] := by
  refine ⟨(List.append_nil tokens).symm, ⟨need, Nat.le_refl _, h.expression⟩,
    fun opened closed hopen hclose => ⟨need + 1, Nat.le_refl _, ?_⟩⟩
  have hgroup := Derives.group hopen hclose h.expression.derives
  exact hgroup.weaken (by cases phrase <;> decide)

/-- What is made of a phrase has the parts of the phrase, if it can be made of other tokens in their
place. -/
theorem HasPart.extend {part : Expr} {front middle back : List Token}
    (h : HasPart phrase tokens e need part front middle back) {phrase' : Phrase}
    {tokens' : List Token} {e' : Expr} {outer : Nat} (lead trail : List Token)
    (htokens : tokens' = lead ++ (tokens ++ trail)) (hneed : need ≤ outer)
    (hmake : ∀ {inner : List Token} {n : Nat}, n ≤ need + 1 → Derives phrase inner e.bare n →
      ∃ n' ≤ outer + 1, Derives phrase' (lead ++ (inner ++ trail)) e'.bare n') :
    ∃ front middle back, HasPart phrase' tokens' e' outer part front middle back := by
  obtain ⟨need', hle, hpart⟩ := h.located
  refine ⟨lead ++ front, middle, back ++ trail, by simp [htokens, h.tokens_eq],
    ⟨need', Nat.le_trans hle hneed, hpart⟩, fun opened closed hopen hclose => ?_⟩
  obtain ⟨n, hn, hd⟩ := h.enclosed opened closed hopen hclose
  obtain ⟨n', hn', hd'⟩ := hmake hn hd
  exact ⟨n', hn', by simpa using hd'⟩

/-- Every node of a tree is a part of it. -/
theorem Located.exists_hasPart (h : Located phrase tokens e need) {part : Expr}
    (hpart : part ∈ e.postorder) :
    ∃ front middle back, HasPart phrase tokens e need part front middle back := by
  induction h with
  | number kind =>
    obtain rfl := List.mem_singleton.mp hpart
    exact ⟨_, _, _, Located.hasPart_self (.number kind)⟩
  | @group opened closed tokens e need open_kind close_kind inner ih =>
    rcases Expr.mem_postorder_withSpan hpart with rfl | hpart
    · exact ⟨_, _, _, Located.hasPart_self (.group open_kind close_kind inner)⟩
    · obtain ⟨front, middle, back, h⟩ := ih hpart
      refine h.extend [opened] [closed] rfl (Nat.le_succ need) fun hn hd => ?_
      rw [Expr.bare_withSpan]
      exact ⟨_, Nat.succ_le_succ hn, .group open_kind close_kind hd⟩
  | @signed token tokens sign e need kind operand ih =>
    rcases Expr.mem_postorder_signed.mp hpart with hpart | rfl
    · obtain ⟨front, middle, back, h⟩ := ih hpart
      refine h.extend [token] [] (by simp) (Nat.le_succ need) fun hn hd => ?_
      rw [List.append_nil]
      exact ⟨_, Nat.succ_le_succ hn, .signed kind hd⟩
    · exact ⟨_, _, _, Located.hasPart_self (.signed kind operand)⟩
  | @binary token lefts rights op left right leftNeed rightNeed kind hl hr ihl ihr =>
    rcases Expr.mem_postorder_binary.mp hpart with hpart | hpart | rfl
    · obtain ⟨front, middle, back, h⟩ := ihl hpart
      refine h.extend [] (token :: rights) rfl (by omega) fun hn hd => ?_
      exact ⟨_, by omega, .binary kind hd hr.derives⟩
    · obtain ⟨front, middle, back, h⟩ := ihr hpart
      refine h.extend (lefts ++ [token]) [] (by simp) (by omega) fun hn hd => ?_
      rw [List.append_nil, List.append_assoc]
      exact ⟨_, by omega, .binary kind hl.derives hd⟩
    · exact ⟨_, _, _, Located.hasPart_self (.binary kind hl hr)⟩
  | ofPrimary _ ih | ofSigned _ ih | ofFactor _ ih | ofTerm _ ih =>
    obtain ⟨front, middle, back, h⟩ := ih hpart
    refine h.extend [] [] (by simp) (Nat.le_refl _) fun hn hd => ?_
    rw [List.append_nil]
    exact ⟨_, hn, hd.weaken (by decide)⟩

/-! ## Spans -/

/-- The tokens follow each other in a text. -/
structure Ordered (tokens : List Token) : Prop where
  start_le_stop : ∀ token ∈ tokens, token.span.start ≤ token.span.stop
  pairwise : tokens.Pairwise fun a b => a.span.stop ≤ b.span.start

theorem Ordered.sublist {tokens' : List Token} (h : Ordered tokens)
    (hsub : tokens'.Sublist tokens) : Ordered tokens' :=
  ⟨fun token hmem => h.start_le_stop token (hsub.mem hmem), h.pairwise.sublist hsub⟩

/-- A token stands between those in front of it and those behind it. -/
theorem Ordered.between {front back : List Token} {token : Token}
    (h : Ordered (front ++ token :: back)) :
    (∀ before ∈ front, before.span.stop ≤ token.span.start) ∧
      token.span.start ≤ token.span.stop ∧
      ∀ behind ∈ back, token.span.stop ≤ behind.span.start := by
  obtain ⟨-, hback, hfront⟩ := List.pairwise_append.mp h.pairwise
  exact ⟨fun before hbefore => hfront before hbefore token List.mem_cons_self,
    h.start_le_stop token (List.mem_append_right _ List.mem_cons_self),
    (List.pairwise_cons.mp hback).1⟩

/-- The span reaches from the first of the tokens to the last. -/
def Spans (span : Span) (tokens : List Token) : Prop :=
  ∃ first ∈ tokens.head?, ∃ last ∈ tokens.getLast?,
    span = ⟨first.span.start, last.span.stop⟩ ∧ span.start ≤ span.stop

namespace Spans

variable {a b : Span} {lefts rights : List Token}

/-- What all tokens stand behind, their span stands behind. -/
theorem le_start (h : Spans a tokens) {offset : Nat}
    (hle : ∀ token ∈ tokens, offset ≤ token.span.start) : offset ≤ a.start := by
  obtain ⟨first, hfirst, last, -, rfl, -⟩ := h
  exact hle first (List.mem_of_mem_head? hfirst)

theorem stop_le (h : Spans a tokens) {offset : Nat}
    (hle : ∀ token ∈ tokens, token.span.stop ≤ offset) : a.stop ≤ offset := by
  obtain ⟨first, -, last, hlast, rfl, -⟩ := h
  exact hle last (List.mem_of_mem_getLast? hlast)

theorem start_le_stop (h : Spans a tokens) : a.start ≤ a.stop := by
  obtain ⟨first, -, last, -, -, hle⟩ := h
  exact hle

theorem single {token : Token} (h : token.span.start ≤ token.span.stop) :
    Spans token.span [token] :=
  ⟨token, rfl, token, rfl, rfl, h⟩

theorem cover_eq (ha : Spans a lefts) (hb : Spans b rights) (h : a.stop ≤ b.start) :
    a.cover b = ⟨a.start, b.stop⟩ := by
  have hle := ha.start_le_stop
  have hle' := hb.start_le_stop
  exact Span.cover_eq (by omega) (by omega)

/-- Two spans cover all that stands between them. -/
theorem cover (ha : Spans a lefts) (hb : Spans b rights) (h : a.stop ≤ b.start)
    (between : List Token) : Spans (a.cover b) (lefts ++ (between ++ rights)) := by
  have hle := Nat.le_trans ha.start_le_stop (Nat.le_trans h hb.start_le_stop)
  rw [cover_eq ha hb h]
  obtain ⟨first, hfirst, _, _, rfl, _⟩ := ha
  obtain ⟨_, _, last, hlast, rfl, _⟩ := hb
  refine ⟨first, ?_, last, ?_, rfl, hle⟩
  · rw [List.head?_append, Option.mem_def.mp hfirst]
    rfl
  · rw [← List.append_assoc, List.getLast?_append, Option.mem_def.mp hlast]
    rfl

end Spans

/-- A tree reaches from the first of its tokens to the last, and its operands and operators stand
side by side. -/
theorem Located.spans (h : Located phrase tokens e need) (hordered : Ordered tokens) :
    Spans e.span tokens ∧ e.SideBySide := by
  induction h with
  | number => exact ⟨.single (hordered.start_le_stop _ List.mem_cons_self), trivial⟩
  | @group opened closed tokens e need open_kind close_kind inner ih =>
    obtain ⟨hspan, hside⟩ := ih (hordered.sublist (by simp))
    obtain ⟨-, hopened, hbehind⟩ :=
      (show Ordered ([] ++ opened :: (tokens ++ [closed])) from hordered).between
    obtain ⟨hbefore, hclosed, -⟩ :=
      (show Ordered ((opened :: tokens) ++ closed :: []) from hordered).between
    have hstart := hspan.le_start fun token h => hbehind token (List.mem_append_left _ h)
    have hstop := hspan.stop_le fun token h => hbefore token (List.mem_cons_of_mem _ h)
    have hle := hbefore opened List.mem_cons_self
    refine ⟨?_, hside.withSpan ⟨Nat.le_trans hopened hstart, Nat.le_trans hstop hclosed⟩⟩
    rw [Expr.span_withSpan, ← Spans.cover_eq (.single hopened) (.single hclosed) hle]
    exact (Spans.single hopened).cover (.single hclosed) hle tokens
  | @signed token tokens sign e need kind operand ih =>
    obtain ⟨hspan, -⟩ := ih (hordered.sublist (List.sublist_cons_self ..))
    obtain ⟨-, htoken, hbehind⟩ := (show Ordered ([] ++ token :: tokens) from hordered).between
    exact ⟨(Spans.single htoken).cover hspan (hspan.le_start hbehind) [],
      Span.within_cover_right ..⟩
  | @binary token lefts rights op left right leftNeed rightNeed kind hl hr ihl ihr =>
    obtain ⟨hleft, -⟩ := ihl (hordered.sublist (List.sublist_append_left ..))
    obtain ⟨hright, -⟩ := ihr (hordered.sublist (by simp))
    obtain ⟨hbefore, htoken, hbehind⟩ := hordered.between
    have hstop := hleft.stop_le hbefore
    have hstart := hright.le_start hbehind
    have hle := Nat.le_trans hstop (Nat.le_trans htoken hstart)
    have hop : token.span.Within (left.span.cover right.span) := by
      rw [hleft.cover_eq hright hle]
      exact ⟨Nat.le_trans hleft.start_le_stop hstop, Nat.le_trans hstart hright.start_le_stop⟩
    exact ⟨hleft.cover hright hle [token], hstop, hstart, Span.within_cover_left .., hop,
      Span.within_cover_right ..⟩
  | ofPrimary _ ih | ofSigned _ ih | ofFactor _ ih | ofTerm _ ih => exact ih hordered

end Grammar

end Calculator
