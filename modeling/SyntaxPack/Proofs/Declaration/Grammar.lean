import SyntaxPack.Proofs.Declaration.Lexemes
/-!
# SyntaxPack.Proofs.Declaration.Grammar

Which texts declare a type, and which one.

The grammar is given by inductive relations between tokens and types, which know of no order of
reading and of no lexemes. Reading follows the derivations: the members that are read so far are
those that their tokens derive (`ReadTo`, `derives_of_parseAfter`), and where tokens derive a row of
members, reading gets behind them with just these members (`run_of_derivesMember`,
`parseLexemes_of_derives`). Both together say that a text is accepted if and only if it is a
sentence of the grammar, with the type that it stands for (`parse_eq_ok_iff`).
-/

namespace SyntaxPack.Declaration

variable {lookup : String → Option ShapeId} {tokens : List Token} {decl member : TypeDecl}
  {members before : List TypeDecl} {lexs rest : List Lexeme} {name : String}

/-! ### The grammar

A member derives its suffixes from left to right, and a row of members is derived from left to
right, too. What is ruled out is a suffix without a member in front of it, and a bar without one on
both sides. -/

/-- The kinds of types with a name of their own. -/
def kinds : List (String × TypeDecl) :=
  [("any", .any), ("null", .null), ("boolean", .boolean), ("integer", .integer),
    ("double", .double), ("number", .number), ("string", .string), ("object", .object),
    ("array", .array)]

/-- Whether `?` adds nothing to a type. -/
def IsNullable (decl : TypeDecl) : Prop :=
  decl = .any ∨ decl = .null ∨ ∃ inner, decl = .nullable inner

/-- The type that a name stands for: that of a kind, or a shape that is found under the name. -/
inductive Names (lookup : String → Option ShapeId) : String → TypeDecl → Prop
  | kind {name : String} {decl : TypeDecl} (kind : (name, decl) ∈ kinds) : Names lookup name decl
  | shape {name : String} {id : ShapeId} (no_kind : name ∉ kinds.map Prod.fst)
    (no_value : name ≠ "true" ∧ name ≠ "false") (found : lookup name = some id) :
    Names lookup name (.shape id)

/-- `member := name ( '[]' | '?' )*`, the suffixes being applied from left to right. -/
inductive DerivesMember (lookup : String → Option ShapeId) : List Token → TypeDecl → Prop
  | name {chars : List Char} {decl : TypeDecl} (names : Names lookup (String.ofList chars) decl) :
    DerivesMember lookup [.name chars] decl
  | array {tokens : List Token} {decl : TypeDecl} (member : DerivesMember lookup tokens decl) :
    DerivesMember lookup (tokens ++ [.brackets]) (.arrayOf decl)
  | nullable {tokens : List Token} {decl : TypeDecl} (member : DerivesMember lookup tokens decl)
    (not_nullable : ¬ IsNullable decl) :
    DerivesMember lookup (tokens ++ [.question]) (.nullable decl)
  | already {tokens : List Token} {decl : TypeDecl} (member : DerivesMember lookup tokens decl)
    (nullable : IsNullable decl) : DerivesMember lookup (tokens ++ [.question]) decl

/-- `decl := member ( '|' member )*`, with the members in their order. -/
inductive Derives (lookup : String → Option ShapeId) : List Token → List TypeDecl → Prop
  | one {tokens : List Token} {decl : TypeDecl} (member : DerivesMember lookup tokens decl) :
    Derives lookup tokens [decl]
  | more {tokens tokens' : List Token} {decl : TypeDecl} {members : List TypeDecl}
    (front : Derives lookup tokens members) (member : DerivesMember lookup tokens' decl) :
    Derives lookup (tokens ++ .bar :: tokens') (members ++ [decl])

/-- The type that members stand for: one for itself, several for their union. -/
inductive Forms : List TypeDecl → TypeDecl → Prop
  | one (decl : TypeDecl) : Forms [decl] decl
  | union {members : List TypeDecl} (several : 2 ≤ members.length) : Forms members (.union members)

/-- A text declares a type: it spells a sentence of the grammar that stands for the type. -/
def Declares (lookup : String → Option ShapeId) (text : String) (decl : TypeDecl) : Prop :=
  ∃ tokens members, Spells text.toList tokens ∧ Derives lookup tokens members ∧ Forms members decl

/-! ### Names, suffixes and unions

Three decisions of reading, each with its counterpart in the grammar: what a name stands for,
whether `?` adds anything, and when a row of members is a union. -/

theorem resolve_eq_ok_iff : resolve lookup name = .ok decl ↔ Names lookup name decl := by
  constructor
  · intro h
    unfold resolve at h
    split at h
    case h_10 | h_11 => simp at h
    case h_12 hnames =>
      split at h
      · rename_i id hfound
        obtain rfl := Except.ok.inj h
        refine .shape (fun hkind => ?_) ⟨by assumption, by assumption⟩ hfound
        simp only [kinds, List.map_cons, List.map_nil, List.mem_cons, List.not_mem_nil] at hkind
        grind
      · simp at h
    all_goals
      obtain rfl := Except.ok.inj h
      exact .kind (by simp [kinds])
  · intro h
    cases h with
    | kind hkind =>
        simp only [kinds, List.mem_cons, Prod.mk.injEq, List.not_mem_nil, or_false] at hkind
        rcases hkind with ⟨rfl, rfl⟩ | ⟨rfl, rfl⟩ | ⟨rfl, rfl⟩ | ⟨rfl, rfl⟩ | ⟨rfl, rfl⟩ |
          ⟨rfl, rfl⟩ | ⟨rfl, rfl⟩ | ⟨rfl, rfl⟩ | ⟨rfl, rfl⟩ <;> rfl
    | shape hkind hvalue hfound =>
        unfold resolve
        split
        case h_12 => rw [hfound]
        case h_10 => exact absurd rfl hvalue.1
        case h_11 => exact absurd rfl hvalue.2
        all_goals exact absurd (by decide) hkind

theorem orNull_of_isNullable (h : IsNullable decl) : decl.orNull = decl := by
  rcases h with rfl | rfl | ⟨inner, rfl⟩ <;> rfl

theorem orNull_of_not_isNullable (h : ¬ IsNullable decl) : decl.orNull = .nullable decl := by
  cases decl with
  | any => exact absurd (.inl rfl) h
  | null => exact absurd (.inr (.inl rfl)) h
  | nullable inner => exact absurd (.inr (.inr ⟨inner, rfl⟩)) h
  | _ => rfl

/-- The suffix `?` makes a member nullable, if it is not already. -/
theorem DerivesMember.orNull (h : DerivesMember lookup tokens decl) :
    DerivesMember lookup (tokens ++ [.question]) decl.orNull := by
  by_cases hnull : IsNullable decl
  · rw [orNull_of_isNullable hnull]
    exact .already h hnull
  · rw [orNull_of_not_isNullable hnull]
    exact .nullable h hnull

theorem Derives.ne_nil (h : Derives lookup tokens members) : members ≠ [] := by
  cases h <;> simp

theorem forms_iff (hmembers : members ≠ []) : Forms members decl ↔ decl = ofMembers members := by
  constructor
  · intro h
    cases h with
    | one => rfl
    | union several =>
        match members, several with
        | _ :: _ :: _, _ => rfl
  · rintro rfl
    match members, hmembers with
    | [member], _ => exact .one member
    | _ :: _ :: _, _ => exact .union (by simp)

/-! ### What is read is derived

By induction on the lexemes that are left, with what was read so far as the invariant. -/

/-- Some tokens derive the members that are read so far, of which `member` is the last one and may
still get suffixes. `before` holds the others, the last one first. -/
inductive ReadTo (lookup : String → Option ShapeId) :
    List Token → List TypeDecl → TypeDecl → Prop
  | first {tokens : List Token} {member : TypeDecl} (own : DerivesMember lookup tokens member) :
    ReadTo lookup tokens [] member
  | later {front tokens : List Token} {before : List TypeDecl} {member : TypeDecl}
    (others : Derives lookup front before.reverse) (own : DerivesMember lookup tokens member) :
    ReadTo lookup (front ++ .bar :: tokens) before member

namespace ReadTo

theorem derives (h : ReadTo lookup tokens before member) :
    Derives lookup tokens (member :: before).reverse := by
  cases h with
  | first own => exact .one own
  | later others own =>
      rw [List.reverse_cons]
      exact .more others own

/-- A suffix goes to the last member. -/
theorem suffix {token : Token} {member' : TypeDecl} (h : ReadTo lookup tokens before member)
    (happly : ∀ own, DerivesMember lookup own member → DerivesMember lookup (own ++ [token]) member') :
    ReadTo lookup (tokens ++ [token]) before member' := by
  cases h with
  | first own => exact .first (happly _ own)
  | later others own =>
      rw [List.append_assoc, List.cons_append]
      exact .later others (happly _ own)

end ReadTo

/-- A text that is read to its end is derived, with what was read before. -/
theorem derives_of_parseAfter (h : parseAfter lookup before member lexs = .ok decl)
    (hread : ReadTo lookup tokens before member) :
    ∃ members, Derives lookup (tokens ++ lexs.map Lexeme.token) members ∧
      decl = ofMembers members := by
  fun_induction parseAfter lookup before member lexs generalizing tokens with
  | case1 before member =>
      obtain rfl := Except.ok.inj h
      exact ⟨_, by simpa using hread.derives, rfl⟩
  | case2 before member text rest ih =>
      simpa using ih h (hread.suffix fun own => .array)
  | case3 before member text rest ih =>
      simpa using ih h (hread.suffix fun own => .orNull)
  | case4 before member text chars text' rest next hnext ih =>
      simpa using ih h (.later hread.derives (.name (resolve_eq_ok_iff.mp hnext)))
  | case5 => simp at h
  | case6 => simp at h
  | case7 => simp at h

theorem derives_of_parseLexemes (h : parseLexemes lookup lexs = .ok decl) :
    ∃ members, Derives lookup (lexs.map Lexeme.token) members ∧ decl = ofMembers members := by
  unfold parseLexemes at h
  split at h
  · split at h
    · rename_i hname
      exact derives_of_parseAfter h (.first (.name (resolve_eq_ok_iff.mp hname)))
    · simp at h
  · simp at h

/-- Tokens that derive members have all brackets in pairs. -/
theorem Derives.strayBracket_notMem (h : Derives lookup tokens members) : .strayBracket ∉ tokens := by
  have hmember : ∀ {tokens decl}, DerivesMember lookup tokens decl → .strayBracket ∉ tokens := by
    intro tokens decl h
    induction h with
    | name => simp
    | array member ih | nullable member _ ih | already member _ ih => simpa using ih
  induction h with
  | one member => exact hmember member
  | more front member ih => simpa using ⟨ih, hmember member⟩

/-! ### What is derived is read

By induction on the derivation. A derivation takes its tokens off the end and reading takes them off
the front, so what is shown is that reading gets behind the tokens, whatever follows them. -/

/-- The last token belongs to the last lexeme. -/
theorem exists_of_map_token_append {token : Token}
    (h : lexs.map Lexeme.token = tokens ++ [token]) :
    ∃ front text, lexs = front ++ [⟨token, text⟩] ∧ front.map Lexeme.token = tokens := by
  obtain ⟨front, last, rfl, hfront, hlast⟩ := List.map_eq_append_iff.mp h
  obtain ⟨⟨_, text⟩, rfl, rfl⟩ := List.map_eq_singleton_iff.mp hlast
  exact ⟨front, text, rfl, hfront⟩

/-- What goes on behind a name as reading does gets behind all tokens of the member. -/
theorem run_of_derivesMember (run : List Lexeme → Except Fault TypeDecl)
    (hname : ∀ chars text rest decl, Names lookup (String.ofList chars) decl →
      run (⟨.name chars, text⟩ :: rest) = parseAfter lookup before decl rest)
    (h : DerivesMember lookup tokens decl) (hlexs : lexs.map Lexeme.token = tokens)
    (rest : List Lexeme) : run (lexs ++ rest) = parseAfter lookup before decl rest := by
  induction h generalizing lexs rest with
  | name names =>
      obtain ⟨⟨_, text⟩, rfl, rfl⟩ := List.map_eq_singleton_iff.mp hlexs
      exact hname _ text rest _ names
  | array member ih =>
      obtain ⟨front, text, rfl, hfront⟩ := exists_of_map_token_append hlexs
      rw [List.append_assoc, ih hfront, List.singleton_append, parseAfter]
  | nullable member hnull ih =>
      obtain ⟨front, text, rfl, hfront⟩ := exists_of_map_token_append hlexs
      rw [List.append_assoc, ih hfront, List.singleton_append, parseAfter,
        orNull_of_not_isNullable hnull]
  | already member hnull ih =>
      obtain ⟨front, text, rfl, hfront⟩ := exists_of_map_token_append hlexs
      rw [List.append_assoc, ih hfront, List.singleton_append, parseAfter,
        orNull_of_isNullable hnull]

/-- Reading gets behind all tokens of the members, and has read these. -/
theorem parseLexemes_of_derives (h : Derives lookup tokens members)
    (hlexs : lexs.map Lexeme.token = tokens) : ∃ before member,
      members = (member :: before).reverse ∧
      ∀ rest, parseLexemes lookup (lexs ++ rest) = parseAfter lookup before member rest := by
  induction h generalizing lexs with
  | @one tokens decl member =>
      refine ⟨[], decl, rfl, run_of_derivesMember (parseLexemes lookup)
        (fun chars text rest decl hname => ?_) member hlexs⟩
      simp only [parseLexemes, resolve_eq_ok_iff.mpr hname]
  | @more tokens tokens' decl members front member ih =>
      obtain ⟨lexs, _, rfl, hfront, hmap⟩ := List.map_eq_append_iff.mp hlexs
      obtain ⟨⟨_, text⟩, own, rfl, rfl, hown⟩ := List.map_eq_cons_iff.mp hmap
      obtain ⟨before, last, rfl, hread⟩ := ih hfront
      refine ⟨last :: before, decl, List.reverse_cons.symm, fun rest => ?_⟩
      rw [List.append_assoc, hread, List.cons_append]
      refine run_of_derivesMember (fun lexs => parseAfter lookup before last (⟨.bar, text⟩ :: lexs))
        (fun chars text' rest decl hname => ?_) member hown rest
      simp only [parseAfter, resolve_eq_ok_iff.mpr hname]

/-! ### The sentences of the grammar

Together with the spelling of tokens, both directions for texts. -/

/-- A text is accepted if and only if it is a sentence of the grammar, and the type is the one that
the sentence stands for. -/
theorem parse_eq_ok_iff (lookup : String → Option ShapeId) (text : String) (decl : TypeDecl) :
    parse lookup text = .ok decl ↔ Declares lookup text decl := by
  rw [parse]
  constructor
  · intro h
    obtain ⟨members, hderives, rfl⟩ := derives_of_parseLexemes h
    exact ⟨_, members, spells_iff.mpr ⟨rfl, hderives.strayBracket_notMem⟩, hderives,
      (forms_iff hderives.ne_nil).mpr rfl⟩
  · rintro ⟨tokens, members, hspells, hderives, hforms⟩
    obtain ⟨htokens, -⟩ := spells_iff.mp hspells
    obtain ⟨before, member, rfl, hread⟩ := parseLexemes_of_derives hderives htokens
    obtain rfl := (forms_iff hderives.ne_nil).mp hforms
    rw [← List.append_nil (lexemes text.toList), hread, parseAfter]

end SyntaxPack.Declaration
