import WordLang.Proofs.Formatting
import WordLang.Proofs.Progress

/-! # The parser sees the layout of a text only through `return`

    Two texts with the same tokens may have them on different lines and in
    different columns.  The parser gives them the same program but for its
    places, or the same fault at the same token, unless the token after some
    `return` is on its line in one of them only: then it is the value of the
    `return` there and starts a statement in the other.

    This is a statement about two runs of the parser.  Both have the fuel
    they need, so they agree to the end; the places that belong together are
    those of the tokens with the same number. -/

namespace WordLang

open Grammar

/-! ## Section 1: Tokens laid out in two ways -/

/-- The tokens of two streams are the same, and each `return` has the token after it on its line in
    both or in neither.  Nothing is asked of tokens that never start a value. -/
structure SameTokens (ts ts' : Stream) : Prop where
  items   : ts.map Located.item = ts'.map Located.item
  returns : ∀ {i : Nat} {r r' next next' : Located Token}, ts[i]? = some r → ts'[i]? = some r' →
    ts[i + 1]? = some next → ts'[i + 1]? = some next' → r.item = .keyword .returnWord →
    next.item ≠ .sign .rbrace → next.item ≠ .sign .semicolon → next.item ≠ .eof →
    (next.pos.line = r.pos.line ↔ next'.pos.line = r'.pos.line)

/-- The places of the tokens with the same number belong together.  Where trees are compared, all
    places are forgotten. -/
def Layouts.byIndex (ts ts' : Stream) : Layouts where
  Together p p' := ∃ (i : Nat) (t t' : Located Token), ts[i]? = some t ∧ ts'[i]? = some t' ∧
    p = t.pos ∧ p' = t'.pos
  move _ := .start
  move' _ := .start
  moved _ := rfl

namespace SameTokens

variable {c : Layouts} {t t' : Located Token} {ts ts' : Stream}

theorem length_eq (h : SameTokens ts ts') : ts.length = ts'.length := by
  have hlength := congrArg List.length h.items
  rwa [List.length_map, List.length_map] at hlength

theorem head_eq (h : SameTokens (t :: ts) (t' :: ts')) : t.item = t'.item :=
  (List.cons.inj h.items).1

theorem tail (h : SameTokens (t :: ts) (t' :: ts')) : SameTokens ts ts' where
  items := (List.cons.inj h.items).2
  returns {i} := h.returns (i := i + 1)

/-- Whether a value follows a `return` at the front is the same in both streams. -/
theorem valueFollows_iff (h : SameTokens (t :: ts) (t' :: ts'))
    (ht : t.item = .keyword .returnWord) : ValueFollows t.pos ts ↔ ValueFollows t'.pos ts' := by
  have htail := h.tail.items
  cases ts with
  | nil =>
    cases ts' with
    | nil => exact Iff.rfl
    | cons _ _ => cases htail
  | cons next rest =>
    cases ts' with
    | nil => cases htail
    | cons next' rest' =>
      have hnext : next.item = next'.item := h.tail.head_eq
      have hline := h.returns (i := 0) rfl rfl rfl rfl ht
      simp only [ValueFollows, ← hnext]
      constructor
      · rintro ⟨h₁, h₂, h₃, h₄⟩
        exact ⟨(hline h₂ h₃ h₄).mp h₁, h₂, h₃, h₄⟩
      · rintro ⟨h₁, h₂, h₃, h₄⟩
        exact ⟨(hline h₂ h₃ h₄).mpr h₁, h₂, h₃, h₄⟩

theorem aligned (h : SameTokens ts ts') (hend : ∃ t ∈ ts, t.item = .eof)
    (hplaces : ∀ {i : Nat} {t t' : Located Token}, ts[i]? = some t → ts'[i]? = some t' →
      c.Together t.pos t'.pos) :
    Aligned c ts ts' := by
  induction ts generalizing ts' with
  | nil =>
    obtain ⟨t, ht, -⟩ := hend
    cases ht
  | cons t ts ih =>
    cases ts' with
    | nil => cases h.items
    | cons t' ts' =>
      have hplace : c.Together t.pos t'.pos := hplaces (i := 0) rfl rfl
      have hitem : t.item = t'.item := h.head_eq
      have hvalue := h.valueFollows_iff
      obtain ⟨p, token⟩ := t
      obtain ⟨p', token'⟩ := t'
      subst hitem
      by_cases ht : token = .eof
      · subst ht
        exact .last hplace
      · refine .cons hplace ht hvalue (ih h.tail ?_ fun {i} => hplaces (i := i + 1))
        exact (Takes.cons (.none ts) ht).mem_eof hend

end SameTokens

/-! ## Section 2: The parser on both -/

/-- The same result but for places: programs with the same trees, or a fault of the same kind at the
    tokens with the same number. -/
inductive SameParse (ts ts' : Stream) :
    Except ParseError Program → Except ParseError Program → Prop where
  | parsed {p p' : Program} (trees : p.erase = p'.erase) : SameParse ts ts' (.ok p) (.ok p')
  | failed {i : Nat} {t t' : Located Token} {cause : ParseCause} (fault : cause ≠ .outOfFuel)
      (first : ts[i]? = some t) (second : ts'[i]? = some t') :
      SameParse ts ts' (.error ⟨t.pos, cause⟩) (.error ⟨t'.pos, cause⟩)

theorem SameTokens.sameParse {ts ts' : Stream} {fuel : Nat} (h : SameTokens ts ts')
    (hend : ∃ t ∈ ts, t.item = .eof) (hfuel : 2 * ts.length + 2 < fuel) :
    SameParse ts ts' (Program.ofTokensWith fuel ts) (Program.ofTokensWith fuel ts') := by
  have haligned : Aligned (.byIndex ts ts') ts ts' :=
    h.aligned hend fun ht ht' => ⟨_, _, _, ht, ht', rfl, rfl⟩
  unfold Program.ofTokensWith
  cases Parser.agree_items (Nat.le_refl fuel) haligned with
  -- the fuel is enough for the first run, and so the second one is at no loss either
  | exhausted first => exact absurd rfl (Parser.fueled_items hfuel _ first)
  | @reads is is' rest rest' first second same left =>
    rw [Parser.run'_of_reads first, Parser.run'_of_reads second]
    refine .parsed ?_
    rw [← Program.relocate_start, ← Program.relocate_start]
    exact congrArg Program.mk same
  | fails first second place =>
    obtain ⟨i, t, t', ht, ht', rfl, rfl⟩ := place
    rw [Parser.run'_of_error first, Parser.run'_of_error second]
    exact .failed (Parser.fueled_items hfuel _ first) ht ht'

/-- The parser sees the layout of a text only through `return`.  Two streams of the same tokens
    give programs that are equal but for their places, or the same fault, which is in each at the
    place of the token with the same number. -/
theorem parser_ignores_layout {init init' : Stream} {pos pos' : Position}
    (h : SameTokens (init ++ [⟨pos, .eof⟩]) (init' ++ [⟨pos', .eof⟩])) :
    SameParse (init ++ [⟨pos, .eof⟩]) (init' ++ [⟨pos', .eof⟩])
      (Program.ofTokens (init ++ [⟨pos, .eof⟩])) (Program.ofTokens (init' ++ [⟨pos', .eof⟩])) := by
  have hend : ∃ t ∈ init ++ [⟨pos, Token.eof⟩], t.item = .eof := ⟨⟨pos, .eof⟩, by simp, rfl⟩
  rw [Program.ofTokens, Program.ofTokens, Program.closeTokens_of_eof, Program.closeTokens_of_eof,
    ← h.length_eq]
  exact h.sameParse hend (by omega)

/-- The semicolon after `return` may be on its line or not, and the fault that follows is found at
    the same token. -/
theorem parser_ignores_layout_break :
    SameParse
      ([⟨⟨1, 1⟩, .keyword .returnWord⟩, ⟨⟨1, 7⟩, .sign .semicolon⟩,
        ⟨⟨1, 9⟩, .keyword .breakWord⟩] ++ [⟨⟨1, 14⟩, .eof⟩])
      ([⟨⟨1, 1⟩, .keyword .returnWord⟩, ⟨⟨2, 1⟩, .sign .semicolon⟩,
        ⟨⟨4, 3⟩, .keyword .breakWord⟩] ++ [⟨⟨5, 1⟩, .eof⟩])
      (.error ⟨⟨1, 9⟩, .outsideLoop .breakWord⟩) (.error ⟨⟨4, 3⟩, .outsideLoop .breakWord⟩) := by
  refine parser_ignores_layout ⟨rfl, fun {i r r' next next'} hr hr' hnext hnext' => ?_⟩
  rcases i with _ | _ | _ | i
  · cases hnext
    intro _ _ hsemicolon
    exact absurd rfl hsemicolon
  · cases hr
    exact fun hreturn => nomatch hreturn
  · cases hr
    exact fun hreturn => nomatch hreturn
  · -- nothing follows the last token
    simp at hnext

end WordLang
