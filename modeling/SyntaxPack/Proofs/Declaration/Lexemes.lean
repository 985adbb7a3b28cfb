import SyntaxPack.Shape.Declaration
/-!
# SyntaxPack.Proofs.Declaration.Lexemes

How the text of a declared type is made of tokens.

`Spells` says it without a way to find them: tokens stand one behind the other, with blanks
anywhere between them, and a name ends where the next character cannot be part of it. Cutting a text
into lexemes finds the tokens that it spells, and a bracket that is no part of `[]` wherever there
are none (`spells_iff`).
-/

namespace SyntaxPack.Declaration

variable {cs chars after : List Char} {c : Char} {tokens : List Token}

/-- A text is a row of tokens, with blanks anywhere between them. -/
inductive Spells : List Char → List Token → Prop
  /-- Nothing is left. -/
  | nil : Spells [] []
  /-- A blank in front of a token, or behind the last one. -/
  | blank {c : Char} {cs : List Char} {tokens : List Token} (isBlank : Text.isBlank c = true)
    (rest : Spells cs tokens) : Spells (c :: cs) tokens
  /-- A name, which takes all characters that can be part of it. -/
  | name {chars cs : List Char} {tokens : List Token} (nonempty : chars ≠ [])
    (run : ∀ c ∈ chars, isNameChar c = true) (maximal : ∀ c ∈ cs.head?, isNameChar c = false)
    (rest : Spells cs tokens) : Spells (chars ++ cs) (.name chars :: tokens)
  /-- The suffix `[]`, in one piece. -/
  | brackets {cs : List Char} {tokens : List Token} (rest : Spells cs tokens) :
    Spells ('[' :: ']' :: cs) (.brackets :: tokens)
  /-- The suffix `?`. -/
  | question {cs : List Char} {tokens : List Token} (rest : Spells cs tokens) :
    Spells ('?' :: cs) (.question :: tokens)
  /-- The separator `|`. -/
  | bar {cs : List Char} {tokens : List Token} (rest : Spells cs tokens) :
    Spells ('|' :: cs) (.bar :: tokens)

/-! ### Characters -/

theorem isNameChar_iff : isNameChar c = true ↔
    c ≠ '|' ∧ c ≠ '?' ∧ c ≠ '[' ∧ c ≠ ']' ∧ Text.isBlank c = false := by
  simp [isNameChar, and_assoc]

theorem not_isNameChar_of_isBlank (h : Text.isBlank c = true) : ¬ isNameChar c = true := by
  simp [isNameChar_iff, h]

/-- A blank is none of the characters that stand for themselves. -/
theorem ne_of_isBlank (h : Text.isBlank c = true) : c ≠ '[' ∧ c ≠ '?' ∧ c ≠ '|' := by
  refine ⟨?_, ?_, ?_⟩ <;> rintro rfl <;> exact absurd h (by decide)

/-! ### The lexemes of spelled tokens -/

theorem lexemes_of_isBlank (h : Text.isBlank c = true) (after : List Char) :
    lexemes (c :: after) = lexemes after := by
  obtain ⟨hopen, hquestion, hbar⟩ := ne_of_isBlank h
  rw [lexemes.eq_3 _ _ fun _ hc _ => hopen hc, if_neg (not_isNameChar_of_isBlank h),
    if_neg hquestion, if_neg hbar, if_pos h]

theorem lexemes_of_isNameChar (h : isNameChar c = true) (after : List Char) :
    lexemes (c :: after) = consNameChar c after (lexemes after) := by
  obtain ⟨-, -, hopen, -, -⟩ := isNameChar_iff.mp h
  rw [lexemes.eq_3 _ _ fun _ hc _ => hopen hc, if_pos h]

/-- In front of the end of a name, a character is a name. -/
theorem consNameChar_of_end (h : ∀ c ∈ after.head?, isNameChar c = false) (c : Char)
    (lexs : List Lexeme) : consNameChar c after lexs = ⟨.name [c], c :: after⟩ :: lexs := by
  refine consNameChar.eq_2 c after lexs fun _ _ _ hmore _ => ?_
  cases hafter : after.head? with
  | none => simp [hafter] at hmore
  | some d => simp [hafter, h d hafter] at hmore

/-- A name is one lexeme. -/
theorem lexemes_name (nonempty : chars ≠ []) (run : ∀ c ∈ chars, isNameChar c = true)
    (maximal : ∀ c ∈ cs.head?, isNameChar c = false) :
    lexemes (chars ++ cs) = ⟨.name chars, chars ++ cs⟩ :: lexemes cs := by
  induction chars with
  | nil => exact absurd rfl nonempty
  | cons c chars ih =>
      rw [List.cons_append, lexemes_of_isNameChar (run c List.mem_cons_self)]
      cases chars with
      | nil => exact consNameChar_of_end maximal c (lexemes cs)
      | cons d chars =>
          have hd : isNameChar d = true := run d (List.mem_cons_of_mem c List.mem_cons_self)
          rw [ih (List.cons_ne_nil d chars) fun e he => run e (List.mem_cons_of_mem c he)]
          exact consNameChar.eq_1 c _ _ _ _ (by simp [hd])

/-- Cutting a text finds the tokens that it spells. -/
theorem Spells.map_token (h : Spells cs tokens) : (lexemes cs).map Lexeme.token = tokens := by
  induction h with
  | nil => rfl
  | blank isBlank rest ih => rw [lexemes_of_isBlank isBlank, ih]
  | name nonempty run maximal rest ih => rw [lexemes_name nonempty run maximal, List.map_cons, ih]
  | brackets rest ih => rw [lexemes, List.map_cons, ih]
  | question rest ih =>
      rw [lexemes.eq_3 _ _ fun _ hc _ => absurd hc (by decide), if_neg (by decide), if_pos rfl,
        List.map_cons, ih]
  | bar rest ih =>
      rw [lexemes.eq_3 _ _ fun _ hc _ => absurd hc (by decide), if_neg (by decide),
        if_neg (by decide), if_pos rfl, List.map_cons, ih]

/-! ### The tokens of lexemes -/

/-- A text that starts with a character of a name spells a name first. -/
theorem Spells.exists_name (h : Spells cs tokens) (hc : ∃ c, cs.head? = some c ∧ isNameChar c = true) :
    ∃ chars after rest, cs = chars ++ after ∧ tokens = .name chars :: rest ∧
      (∀ c ∈ chars, isNameChar c = true) ∧ (∀ c ∈ after.head?, isNameChar c = false) ∧
      Spells after rest := by
  obtain ⟨c, hhead, hc⟩ := hc
  cases h with
  | nil => simp at hhead
  | blank isBlank rest =>
      obtain rfl := Option.some.inj hhead
      exact absurd hc (not_isNameChar_of_isBlank isBlank)
  | name nonempty run maximal rest => exact ⟨_, _, _, rfl, rfl, run, maximal, rest⟩
  | brackets rest | question rest | bar rest =>
      obtain rfl := Option.some.inj hhead
      exact absurd hc (by decide)

/-- A character in front of a spelled text begins its first name, or is a name of its own. -/
theorem Spells.consNameChar (h : Spells after ((lexemes after).map Lexeme.token))
    (hc : isNameChar c = true) :
    Spells (c :: after) ((consNameChar c after (lexemes after)).map Lexeme.token) := by
  by_cases hmore : ∃ d, after.head? = some d ∧ isNameChar d = true
  · obtain ⟨chars, cs, rest, hafter, htokens, run, maximal, hrest⟩ := h.exists_name hmore
    obtain ⟨⟨token, text⟩, lexs, hlexs, rfl, hmap⟩ := List.map_eq_cons_iff.mp htokens
    have hany : after.head?.any isNameChar = true := by
      obtain ⟨d, hhead, hd⟩ := hmore
      simp [hhead, hd]
    rw [hlexs, consNameChar.eq_1 c after chars text lexs hany, List.map_cons, hmap, hafter]
    exact .name (List.cons_ne_nil c chars) (List.forall_mem_cons.mpr ⟨hc, run⟩) maximal hrest
  · have hend : ∀ d ∈ after.head?, isNameChar d = false := by simpa using hmore
    rw [consNameChar_of_end hend, List.map_cons]
    exact .name (List.cons_ne_nil c []) (by simpa using hc) hend h

/-- Nothing is lost in front of a text. -/
theorem mem_consNameChar {token : Token} {lexs : List Lexeme} (htoken : ∀ chars, token ≠ .name chars)
    (h : token ∈ lexs.map Lexeme.token) :
    token ∈ (Declaration.consNameChar c after lexs).map Lexeme.token := by
  fun_cases Declaration.consNameChar c after lexs with
  | case1 chars text others hany =>
      rcases List.mem_cons.mp h with rfl | h
      · exact absurd rfl (htoken chars)
      · exact List.mem_cons_of_mem _ h
  | case2 => exact List.mem_cons_of_mem _ h

/-- What is cut into lexemes without a stray bracket spells their tokens. -/
theorem spells_of_notMem (h : .strayBracket ∉ (lexemes cs).map Lexeme.token) :
    Spells cs ((lexemes cs).map Lexeme.token) := by
  fun_induction lexemes cs with
  | case1 => exact .nil
  | case2 after ih => exact .brackets (ih fun hmem => h (List.mem_cons_of_mem _ hmem))
  | case3 c after _ hc ih =>
      exact (ih fun hmem => h (mem_consNameChar (by simp) hmem)).consNameChar hc
  | case4 after _ _ ih => exact .question (ih fun hmem => h (List.mem_cons_of_mem _ hmem))
  | case5 after _ _ _ ih => exact .bar (ih fun hmem => h (List.mem_cons_of_mem _ hmem))
  | case6 c after _ _ _ _ isBlank ih => exact .blank isBlank (ih h)
  | case7 => exact absurd List.mem_cons_self h

/-- A text spells the tokens that it is cut into, provided that all of its brackets are in pairs. -/
theorem spells_iff : Spells cs tokens ↔
    (lexemes cs).map Lexeme.token = tokens ∧ .strayBracket ∉ tokens := by
  constructor
  · intro h
    refine ⟨h.map_token, ?_⟩
    induction h with
    | nil => simp
    | blank isBlank rest ih => exact ih
    | name _ _ _ rest ih | brackets rest ih | question rest ih | bar rest ih => simpa using ih
  · rintro ⟨rfl, h⟩
    exact spells_of_notMem h

end SyntaxPack.Declaration
