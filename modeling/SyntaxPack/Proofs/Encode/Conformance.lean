import SyntaxPack.Proofs.Encode.Built
import SyntaxPack.Proofs.Encode.Checks
import SyntaxPack.Proofs.Encode.Overflow
/-!
# SyntaxPack.Proofs.Encode.Conformance

How deep the values of an encoded tree conform to their declarations.

`TypeDecl.conforms` follows a declaration through all its levels: an array conforms to `X[]`
if all its elements conform to `X`, whatever `X` is. The walk looks at two levels only, the
tag of a field and the tags of the elements of the array in it, and at each field for itself,
so an array that several fields share is checked for each of them. What a walk establishes is
therefore conformance to the *outermost* form of a declaration, in which arrays within arrays
have lost their element types. A declaration that nests no array in another is its own
outermost form, and conformance to it is complete.
-/

namespace SyntaxPack

/-- Grids of integers. -/
def RegistryDescription.grid : RegistryDescription where
  shapes := [⟨"Grid", [⟨"rows", "integer[][]"⟩]⟩]

/-- The registry of grids. -/
def Registry.grid : Registry where
  typeKey := "type"
  shapes := [⟨"Grid", [⟨"rows", "integer[][]", .arrayOf (.arrayOf .integer)⟩]⟩]

theorem Registry.build_grid : RegistryDescription.grid.build = .ok .grid := by rfl

/-- A grid with one row of one item. -/
def Tree.gridOf (item : Value) : Tree where
  nodes := #[.object ⟨"Grid", [("rows", .array ⟨1⟩)]⟩, .array [.array ⟨2⟩], .array [item]]
  root := .object ⟨0⟩

/-- A grid without rows whose undeclared field refers to a grid with a text for its rows. -/
def Tree.annotatedGrid : Tree where
  nodes := #[.object ⟨"Grid", [("rows", .array ⟨1⟩), ("note", .object ⟨2⟩)]⟩, .array [],
    .object ⟨"Grid", [("rows", .string "x")]⟩]
  root := .object ⟨0⟩

namespace TypeDecl

variable {tree : Tree} {registry : Registry} {decl element : TypeDecl} {tag : Tag} {value : Value}

/-! ### Conformance

A type is checked against a value and everything in the arrays below it. Objects are not gone into:
a shape in a type asks for the tag of an object of that shape, and the fields of that object are
checked where it is walked itself. -/

mutual

/-- Whether a value conforms to a type, down to the elements of arrays at every level. -/
def conforms (tree : Tree) (registry : Registry) : TypeDecl → Value → Bool
  | arrayOf element, .array id => (tree.array? id).any (·.all (element.conforms tree registry))
  | arrayOf _, _ => false
  | nullable inner, value => value = .null || inner.conforms tree registry value
  | union members, value => someConforms tree registry members value
  | decl, value => (Tag.of tree registry value).toOption.any decl.accepts

/-- Whether a value conforms to some type of a list. -/
def someConforms (tree : Tree) (registry : Registry) : List TypeDecl → Value → Bool
  | [], _ => false
  | member :: members, value =>
    member.conforms tree registry value || someConforms tree registry members value

end

@[simp] theorem someConforms_eq_any (members : List TypeDecl) (value : Value) :
    someConforms tree registry members value = members.any (·.conforms tree registry value) := by
  induction members with
  | nil => rfl
  | cons member members ih => simp [someConforms, ih]

/-! ### Declarations without element types

`bare` forgets all element types of a type, `outermost` those below the first one. What is left is
what the two levels of the check can see. -/

mutual

/-- A type in which no array has an element type. -/
def bare : TypeDecl → TypeDecl
  | arrayOf _ => array
  | nullable inner => nullable inner.bare
  | union members => union (bareMembers members)
  | decl => decl

/-- The types of a list without their element types. -/
def bareMembers : List TypeDecl → List TypeDecl
  | [] => []
  | member :: members => member.bare :: bareMembers members

end

mutual

/-- A type in which only arrays that are not within another array have an element type. -/
def outermost : TypeDecl → TypeDecl
  | arrayOf element => arrayOf element.bare
  | nullable inner => nullable inner.outermost
  | union members => union (outermostMembers members)
  | decl => decl

/-- The outermost forms of the types of a list. -/
def outermostMembers : List TypeDecl → List TypeDecl
  | [] => []
  | member :: members => member.outermost :: outermostMembers members

end

mutual

/-- How many array declarations with an element type stand inside one another. -/
def nesting : TypeDecl → Nat
  | arrayOf element => element.nesting + 1
  | nullable inner => inner.nesting
  | union members => nestingMembers members
  | _ => 0

/-- The deepest nesting among the types of a list. -/
def nestingMembers : List TypeDecl → Nat
  | [] => 0
  | member :: members => max member.nesting (nestingMembers members)

end

mutual

theorem bare_of_nesting_eq_zero : ∀ {decl : TypeDecl}, decl.nesting = 0 → decl.bare = decl
  | any, _ | null, _ | boolean, _ | integer, _ | double, _ | number, _ | string, _ | object, _
  | array, _ | shape _, _ => rfl
  | arrayOf _, h => by simp [nesting] at h
  | nullable inner, h => by
      rw [nesting] at h
      rw [bare, bare_of_nesting_eq_zero h]
  | union members, h => by
      rw [nesting] at h
      rw [bare, bareMembers_of_nesting_eq_zero h]

theorem bareMembers_of_nesting_eq_zero : ∀ {members : List TypeDecl},
    nestingMembers members = 0 → bareMembers members = members
  | [], _ => rfl
  | member :: members, h => by
      rw [nestingMembers] at h
      rw [bareMembers, bare_of_nesting_eq_zero (by omega),
        bareMembers_of_nesting_eq_zero (by omega)]

end

mutual

/-- Where no array declaration is nested in another, nothing is lost. -/
theorem outermost_of_nesting_le_one : ∀ {decl : TypeDecl}, decl.nesting ≤ 1 → decl.outermost = decl
  | any, _ | null, _ | boolean, _ | integer, _ | double, _ | number, _ | string, _ | object, _
  | array, _ | shape _, _ => rfl
  | arrayOf element, h => by
      rw [nesting] at h
      rw [outermost, bare_of_nesting_eq_zero (by omega)]
  | nullable inner, h => by
      rw [nesting] at h
      rw [outermost, outermost_of_nesting_le_one h]
  | union members, h => by
      rw [nesting] at h
      rw [outermost, outermostMembers_of_nesting_le_one h]

theorem outermostMembers_of_nesting_le_one : ∀ {members : List TypeDecl},
    nestingMembers members ≤ 1 → outermostMembers members = members
  | [], _ => rfl
  | member :: members, h => by
      rw [nestingMembers] at h
      rw [outermostMembers, outermost_of_nesting_le_one (by omega),
        outermostMembers_of_nesting_le_one (by omega)]

end

/-! ### From tags to conformance

An accepted tag gives conformance to the bare form, and with the accepted tags of the elements to
the outermost form. In a union, elements are checked against the first member that has an element
type, and this member admits the array that they are in. -/

/-- A type that declares an element type admits arrays. -/
theorem accepts_array_of_element : ∀ {decl element : TypeDecl}, decl.element = some element →
    decl.accepts (.builtin .array) = true
  | arrayOf _, _, _ => rfl
  | nullable inner, element, h => by
      rw [TypeDecl.element] at h
      rw [accepts, accepts_array_of_element h, Bool.or_true]
  | union members, element, h => by
      rw [TypeDecl.element, firstElement_eq_findSome?] at h
      obtain ⟨member, hmember, helement⟩ := List.exists_of_findSome?_eq_some h
      rw [accepts, someAccepts_eq_any, List.any_eq_true]
      exact ⟨member, hmember, accepts_array_of_element helement⟩

@[simp] theorem bareMembers_eq_map (members : List TypeDecl) :
    bareMembers members = members.map bare := by
  induction members with
  | nil => rfl
  | cons member members ih => rw [bareMembers, ih, List.map_cons]

@[simp] theorem outermostMembers_eq_map (members : List TypeDecl) :
    outermostMembers members = members.map outermost := by
  induction members with
  | nil => rfl
  | cons member members ih => rw [outermostMembers, ih, List.map_cons]

/-- Only arrays have the tag of arrays. -/
theorem eq_array_of_tag (h : Tag.of tree registry value = .ok (.builtin .array)) :
    ∃ id, value = .array id := by
  match value, h with
  | .array id, _ => exact ⟨id, rfl⟩
  | .number d, h =>
      simp only [Tag.of, Tag.ofNumber, Except.ok.injEq] at h
      split at h <;> simp at h
  | .object id, h =>
      obtain ⟨shape, -, hshape⟩ := Tag.of_object_eq_ok.mp h
      simp at hshape

/-- Only null has the tag of null. -/
theorem eq_null_of_tag (h : Tag.of tree registry value = .ok (.builtin .null)) : value = .null := by
  match value, h with
  | .null, _ => rfl
  | .number d, h =>
      simp only [Tag.of, Tag.ofNumber, Except.ok.injEq] at h
      split at h <;> simp at h
  | .object id, h =>
      obtain ⟨shape, -, hshape⟩ := Tag.of_object_eq_ok.mp h
      simp at hshape

/-- A value whose tag is accepted conforms as far as no element type is asked for. -/
theorem conforms_bare (htag : Tag.of tree registry value = .ok tag) :
    ∀ {decl : TypeDecl}, decl.accepts tag = true → decl.bare.conforms tree registry value = true
  | any, h | null, h | boolean, h | integer, h | double, h | number, h | string, h | object, h
  | array, h | shape _, h => by simpa [bare, conforms, htag, Except.toOption] using h
  | arrayOf _, h => by
      have harray : array.accepts tag = true := by simpa [accepts] using h
      simpa [bare, conforms, htag, Except.toOption] using harray
  | nullable inner, h => by
      rw [accepts, Bool.or_eq_true, decide_eq_true_iff] at h
      rw [bare, conforms, Bool.or_eq_true, decide_eq_true_iff]
      refine h.imp (fun hnull => ?_) (conforms_bare htag)
      exact eq_null_of_tag (hnull ▸ htag)
  | union members, h => by
      rw [accepts, someAccepts_eq_any, List.any_eq_true] at h
      obtain ⟨member, hmember, haccepts⟩ := h
      rw [bare, conforms, someConforms_eq_any, bareMembers_eq_map, List.any_map, List.any_eq_true]
      exact ⟨member, hmember, conforms_bare htag haccepts⟩

/-- A value whose tag is accepted, and the tags of whose elements are accepted by the element
type if it is an array, conforms to the outermost form of a type. -/
theorem conforms_outermost (htag : Tag.of tree registry value = .ok tag) :
    ∀ {decl : TypeDecl}, decl.accepts tag = true →
      (∀ element, decl.element = some element → ∀ id, value = .array id →
        ∃ items, tree.array? id = some items ∧ ∀ item ∈ items, ∃ tag,
          Tag.of tree registry item = .ok tag ∧ element.accepts tag = true) →
      decl.outermost.conforms tree registry value = true
  | any, h, _ | null, h, _ | boolean, h, _ | integer, h, _ | double, h, _ | number, h, _
  | string, h, _ | object, h, _ | array, h, _ | shape _, h, _ => by
      simpa [outermost, conforms, htag, Except.toOption] using h
  | arrayOf element, h, hitems => by
      rw [accepts, decide_eq_true_iff] at h
      obtain ⟨id, rfl⟩ := eq_array_of_tag (h ▸ htag)
      obtain ⟨items, hid, hall⟩ := hitems element rfl id rfl
      rw [outermost, conforms, hid, Option.any_some, List.all_eq_true]
      intro item hitem
      obtain ⟨tag, htag, haccepts⟩ := hall item hitem
      exact conforms_bare htag haccepts
  | nullable inner, h, hitems => by
      rw [accepts, Bool.or_eq_true, decide_eq_true_iff] at h
      rw [outermost, conforms, Bool.or_eq_true, decide_eq_true_iff]
      refine h.imp (fun hnull => ?_) (fun hinner => conforms_outermost htag hinner hitems)
      exact eq_null_of_tag (hnull ▸ htag)
  | union members, h, hitems => by
      rw [accepts, someAccepts_eq_any, List.any_eq_true] at h
      rw [TypeDecl.element, firstElement_eq_findSome?] at hitems
      rw [outermost, conforms, someConforms_eq_any, outermostMembers_eq_map, List.any_map,
        List.any_eq_true]
      -- The first member with an element type decides about arrays; every other value, and
      -- every array if there is no such member, conforms to the member that accepts its tag.
      cases hfound : members.findSome? TypeDecl.element with
      | none =>
          obtain ⟨member, hmember, haccepts⟩ := h
          have hnone : member.element = none := List.findSome?_eq_none_iff.mp hfound member hmember
          exact ⟨member, hmember, conforms_outermost htag haccepts
            (by intro element helement; rw [hnone] at helement; cases helement)⟩
      | some found =>
          by_cases harray : ∃ id, value = .array id
          · obtain ⟨member, hmember, helement⟩ := List.exists_of_findSome?_eq_some hfound
            have haccepts : member.accepts tag = true := by
              obtain ⟨id, hvalue⟩ := harray
              have heq : Tag.builtin .array = tag := by simpa [hvalue, Tag.of] using htag
              exact heq ▸ accepts_array_of_element helement
            refine ⟨member, hmember, conforms_outermost htag haccepts ?_⟩
            intro element helement'
            obtain rfl : found = element := Option.some.inj (helement ▸ helement')
            exact hitems found hfound
          · obtain ⟨member, hmember, haccepts⟩ := h
            refine ⟨member, hmember, conforms_outermost htag haccepts ?_⟩
            intro element _ id hid
            exact absurd ⟨id, hid⟩ harray

end TypeDecl

namespace Tree

variable {tree : Tree} {registry : Registry} {id : NodeId}

/-- A value stands in a node that an encoder reads: as an element of an array or as a field of
an object. An encoder that drops undeclared fields reads the declared ones alone. -/
inductive Reads (tree : Tree) (registry : Registry) (dropping : Bool) (id : NodeId) :
    Value → Prop where
  | element {elements : List Value} {value : Value} :
      tree.array? id = some elements → value ∈ elements → Reads tree registry dropping id value
  | field {object : Object} {name : String} {value : Value} :
      tree.object? id = some object → object.get? name = some value →
      (dropping = true → ∃ shape, registry.lookup object.shape = some shape ∧
        name ∈ (registry.fields shape).map (·.name)) →
      Reads tree registry dropping id value

/-- The root leads to a node through what an encoder reads. -/
def Read (tree : Tree) (registry : Registry) (dropping : Bool) (id : NodeId) : Prop :=
  ∃ root, tree.root.node? = some root ∧ Relation.ReflTransGen
    (fun a b => ∃ value, tree.Reads registry dropping a value ∧ value.node? = some b) root id

/-- If nothing is dropped, all that is reachable is read. Objects have each field once. -/
theorem read_of_reachable (hobjects : ∀ id object, tree.object? id = some object →
    (object.fields.map (·.1)).Nodup) (h : tree.Reachable id) : tree.Read registry false id := by
  obtain ⟨root, hroot, hpath⟩ := h
  refine ⟨root, hroot, Relation.ReflTransGen.mono ?_ _ _ hpath⟩
  intro a b hrefers
  obtain ⟨node, hnode, hmem⟩ := hrefers
  obtain ⟨value, hvalue, hchild⟩ := List.mem_filterMap.mp hmem
  refine ⟨value, ?_, hchild⟩
  cases node with
  | array elements => exact .element (array?_eq_some_iff.mpr hnode) hvalue
  | object object =>
      have hobject := object?_eq_some_iff.mpr hnode
      obtain ⟨⟨name, other⟩, hentry, rfl⟩ := List.mem_map.mp hvalue
      exact .field hobject (lookup_of_mem (hobjects a object hobject) hentry) nofun

end Tree

namespace Module

variable {description : RegistryDescription} {registry : Registry} {tree : Tree}
  {config : EncodingConfig} {bytes : List UInt8} {id : NodeId}

/-- Every object of the tables has a registered shape. -/
theorem HasNode.exists_shape {m : Module} {object : Object} (h : m.HasNode tree registry id)
    (hobject : tree.object? id = some object) :
    ∃ shape, registry.lookup object.shape = some shape := by
  rcases h with ⟨harray, -⟩ | ⟨shape, hshape, -⟩
  · rw [Tree.array?_eq_none_of_object hobject] at harray
    cases harray
  · obtain ⟨other, hother, hlookup⟩ := Tree.shape?_eq_some_iff.mp hshape
    obtain rfl : object = other := Option.some.inj (hobject.symm.trans hother)
    exact ⟨shape, hlookup⟩

namespace WalkInput

variable {input : WalkInput} {m : Module} {shape : String} {field : Field} {value : Value}

/-- A field that passes its check conforms to the outermost form of its type. -/
theorem conforms_of_checkField (h : input.checkField shape field value = .ok ()) :
    field.type.outermost.conforms input.tree input.registry value = true := by
  obtain ⟨⟨tag, htag, haccepts⟩, helements⟩ := checkField_eq_ok.mp h
  exact TypeDecl.conforms_outermost htag haccepts helements

/-- A value that is read of a complete node is one of its slots. -/
theorem Complete.mem_slots (h : input.Complete m id)
    (hid : m.HasNode input.tree input.registry id)
    (hreads : input.tree.Reads input.registry input.config.ignoreUnknownFields id value) :
    value ∈ input.tree.slots input.registry id := by
  cases hreads with
  | element hid hvalue => rwa [Tree.slots_of_array hid]
  | @field object name value hobject hget hdeclared =>
      obtain ⟨shape, hshape⟩ := hid.exists_shape hobject
      -- The field is declared: either only such fields are read, or others are refused.
      have hmem : name ∈ (input.registry.fields shape).map (·.name) := by
        cases hstrict : input.config.ignoreUnknownFields with
        | true =>
            obtain ⟨shape', hshape', hmem⟩ := hdeclared hstrict
            rwa [Option.some.inj (hshape.symm.trans hshape')]
        | false =>
            have hdeclares := checkDeclared_eq_ok.mp (h.object object shape hobject hshape).1 hstrict
              (name, value) (mem_of_lookup hget)
            simpa [Shape.declares] using hdeclares
      obtain ⟨field, hfield, rfl⟩ := List.mem_map.mp hmem
      rw [Tree.slots_of_object hobject hshape, Tree.declaredValues, List.mem_map]
      exact ⟨field, hfield, by rw [Object.get, hget, Option.getD_some]⟩

end WalkInput

/-- The walk registers all that the root leads to through what is read. -/
theorem Located.hasNode_of_read {input : WalkInput} {shapes : List ShapeId}
    {rank : NodeId → Nat} {m : Module} (h : Located input shapes rank m)
    (hid : input.tree.Read input.registry input.config.ignoreUnknownFields id) :
    m.HasNode input.tree input.registry id := by
  obtain ⟨root, hroot, hpath⟩ := hid
  induction hpath with
  | refl => exact h.root.hasNode hroot
  | tail _ hstep ih =>
      obtain ⟨value, hreads, hchild⟩ := hstep
      have hcomplete := h.complete _ ih
      exact (hcomplete.slots value (hcomplete.mem_slots ih hreads)).hasNode hchild

/-- The declared fields of every object that is read conform to the outermost forms of their
types. Where a type nests no array in another, that is the type itself. Unless undeclared fields are
dropped, all objects that are reachable are read. -/
theorem conforms_of_encode (hbuild : description.build = .ok registry)
    (h : encode tree registry config = .ok bytes) :
    (∀ id object, tree.Read registry config.ignoreUnknownFields id → tree.object? id = some object →
      ∃ shape, registry.lookup object.shape = some shape ∧ ∀ field ∈ registry.fields shape,
        field.type.outermost.conforms tree registry (object.get field.name) = true ∧
          (field.type.nesting ≤ 1 →
            field.type.conforms tree registry (object.get field.name) = true)) ∧
      (config.ignoreUnknownFields = false →
        (∀ id object, tree.object? id = some object → (object.fields.map (·.1)).Nodup) →
        ∀ id, tree.Reachable id → tree.Read registry config.ignoreUnknownFields id) := by
  obtain ⟨m, hm, -⟩ := bind_eq_ok.mp h
  obtain ⟨shapes, rank, hlocated, -⟩ :=
    located_of_build (RegistryDescription.valid_of_build hbuild) hm
  constructor
  · intro id object hread hobject
    have hid : m.HasNode tree registry id := hlocated.hasNode_of_read hread
    obtain ⟨shape, hshape⟩ := hid.exists_shape hobject
    refine ⟨shape, hshape, ?_⟩
    intro field hfield
    have hcheck := ((hlocated.complete id hid).object object shape hobject hshape).2 field hfield
    have hconforms : field.type.outermost.conforms tree registry (object.get field.name) = true :=
      WalkInput.conforms_of_checkField hcheck
    exact ⟨hconforms, fun hnesting => TypeDecl.outermost_of_nesting_le_one hnesting ▸ hconforms⟩
  · intro hstrict hobjects id hid
    rw [hstrict]
    exact Tree.read_of_reachable hobjects hid

/-- The rows of a grid of texts are arrays, and that is all there is to them. -/
theorem gridOf_text_conforms : RegistryDescription.grid.build = .ok .grid ∧
    ∃ bytes, encode (.gridOf (.string "x")) .grid {} = .ok bytes ∧
      ∃ shape, Registry.grid.lookup "Grid" = some shape ∧ ∀ field ∈ Registry.grid.fields shape,
        field.type.outermost.conforms (.gridOf (.string "x")) .grid
            (Object.get ⟨"Grid", [("rows", .array ⟨1⟩)]⟩ field.name) = true ∧
          (field.type.nesting ≤ 1 → field.type.conforms (.gridOf (.string "x")) .grid
            (Object.get ⟨"Grid", [("rows", .array ⟨1⟩)]⟩ field.name) = true) := by
  have hsome : (encode (.gridOf (.string "x")) .grid {}).toOption.isSome = true := by decide +kernel
  obtain ⟨bytes, hbytes⟩ := Option.isSome_iff_exists.mp hsome
  have h := eq_ok_of_toOption hbytes
  have hread : (Tree.gridOf (.string "x")).Read .grid false ⟨0⟩ := ⟨⟨0⟩, rfl, .refl⟩
  exact ⟨Registry.build_grid, bytes, h,
    (conforms_of_encode Registry.build_grid h).1 ⟨0⟩ _ hread rfl⟩

/-- A walk looks neither at the items of a row of a grid nor at what a dropped field refers to. -/
theorem encode_not_conforming : RegistryDescription.grid.build = .ok .grid ∧
    (Tree.findCycle (.gridOf (.string "x")) = none ∧
      (Tree.gridOf (.string "x")).Reachable ⟨0⟩ ∧
      (∃ bytes, encode (.gridOf (.string "x")) .grid {} = .ok bytes) ∧
      TypeDecl.conforms (.gridOf (.string "x")) .grid (.arrayOf (.arrayOf .integer))
        (.array ⟨1⟩) = false) ∧
    (Tree.findCycle .annotatedGrid = none ∧ Tree.annotatedGrid.Reachable ⟨2⟩ ∧
      (∃ bytes, encode .annotatedGrid .grid { ignoreUnknownFields := true } = .ok bytes) ∧
      TypeDecl.conforms .annotatedGrid .grid (.arrayOf (.arrayOf .integer))
        (.string "x") = false) := by
  have hgrid : (encode (.gridOf (.string "x")) .grid {}).toOption.isSome = true := by decide +kernel
  have hannotated :
      (encode .annotatedGrid .grid { ignoreUnknownFields := true }).toOption.isSome = true := by
    decide +kernel
  have hnote : Tree.annotatedGrid.Refers ⟨0⟩ ⟨2⟩ := ⟨_, rfl, by decide⟩
  obtain ⟨bytes, hbytes⟩ := Option.isSome_iff_exists.mp hgrid
  obtain ⟨bytes', hbytes'⟩ := Option.isSome_iff_exists.mp hannotated
  refine ⟨Registry.build_grid, ⟨by decide +kernel, ⟨⟨0⟩, rfl, .refl⟩, ?_, by decide +kernel⟩,
    by decide +kernel, ⟨⟨0⟩, rfl, .single hnote⟩, ?_, by decide +kernel⟩
  · exact ⟨bytes, eq_ok_of_toOption hbytes⟩
  · exact ⟨bytes', eq_ok_of_toOption hbytes'⟩

end Module

end SyntaxPack
