import SyntaxPack.Proofs.Decode.Sections
import SyntaxPack.Proofs.Header
import SyntaxPack.Proofs.Registry
import SyntaxPack.Proofs.Tree.Acyclic
/-!
# SyntaxPack.Proofs.Decode.Setup

What is known once the tables are set up.

The object tables lie one behind the other from the first node on, and the arrays
follow them. Every shape that has a tag is registered. The nodes that are set up
are as many as the directory says, and every one of them is matched by a byte that
is still to be read.

`SetUp` collects what every later proof about the decoder starts from. It is established once, by
following `readInput` through its five parts, and its fields are all that is used of those parts
afterwards. `InRange` derives from it that no array or table is indexed beyond its end while the
sections are read.
-/

namespace SyntaxPack

namespace Module

open DecodeState (Took Pays)

variable {registry : Registry} {s t : DecodeState}

/-! ### Tables one behind the other

The directory gives the number of entries of each table, and the tables take up the arena from its
first node on. `Consecutive` follows the list of tables with the first node that is still free. -/

/-- The first table starts at `first`, every other one where the one before it ends,
and the last one ends at `last`. -/
def Consecutive : Nat → List ObjectSlots → Nat → Prop
  | first, [], last => first = last
  | first, slots :: tables, last =>
      slots.first = first ∧ Consecutive (first + slots.count) tables last

namespace Consecutive

variable {first last : Nat} {tables : List ObjectSlots}

theorem le (h : Consecutive first tables last) : first ≤ last := by
  induction tables generalizing first with
  | nil => exact Nat.le_of_eq h
  | cons slots tables ih => exact Nat.le_trans (Nat.le_add_right _ _) (ih h.2)

theorem sum_eq (h : Consecutive first tables last) :
    first + (tables.map ObjectSlots.count).sum = last := by
  induction tables generalizing first with
  | nil =>
      have hends : first = last := h
      simpa using hends
  | cons slots tables ih =>
      rw [List.map_cons, List.sum_cons, ← Nat.add_assoc]
      exact ih h.2

theorem append {before : List ObjectSlots} (h : Consecutive first (before ++ tables) last) :
    ∃ middle, Consecutive first before middle ∧ Consecutive middle tables last := by
  induction before generalizing first with
  | nil => exact ⟨first, rfl, h⟩
  | cons slots before ih =>
      obtain ⟨middle, hbefore, htables⟩ := ih h.2
      exact ⟨middle, ⟨h.1, hbefore⟩, htables⟩

/-- A table lies between the ends. -/
theorem bounds (h : Consecutive first tables last) {slots : ObjectSlots} (hmem : slots ∈ tables) :
    first ≤ slots.first ∧ slots.first + slots.count ≤ last := by
  obtain ⟨before, after, rfl⟩ := List.append_of_mem hmem
  obtain ⟨middle, hbefore, rfl, hafter⟩ := h.append
  exact ⟨hbefore.le, hafter.le⟩

/-- No two tables overlap. -/
theorem unique (h : Consecutive first tables last) {slots slots' : ObjectSlots} {p : Nat}
    (hslots : slots ∈ tables) (hslots' : slots' ∈ tables) (hle : slots.first ≤ p)
    (hlt : p < slots.first + slots.count) (hle' : slots'.first ≤ p)
    (hlt' : p < slots'.first + slots'.count) : slots = slots' := by
  induction tables generalizing first with
  | nil => simp at hslots
  | cons head tables ih =>
      obtain ⟨rfl, htail⟩ := h
      rcases List.mem_cons.mp hslots with rfl | hmem <;>
        rcases List.mem_cons.mp hslots' with rfl | hmem'
      · rfl
      · have := (htail.bounds hmem').1
        omega
      · have := (htail.bounds hmem).1
        omega
      · exact ih htail hmem hmem'

end Consecutive

/-- The entries of the directory become tables one behind the other, each for a shape that has a
tag. -/
theorem objectSlots_eq_ok {tags : Array Tag} {offset first : Nat}
    {entries : List (Option Nat × Nat)} {tables : List ObjectSlots}
    (h : objectSlots registry tags offset first entries = .ok tables) :
    Consecutive first tables (first + (entries.map (·.2)).sum) ∧
      ∀ slots ∈ tables, ∀ id, slots.shape = some id → .shape id ∈ tags := by
  fun_induction objectSlots registry tags offset first entries generalizing tables with
  | case1 first =>
      simp only [Except.ok.injEq] at h
      subst h
      exact ⟨rfl, by simp⟩
  | case2 first count entries ih =>
      obtain ⟨rest, hrest, h₁⟩ := bind_eq_ok.mp h
      simp only [Except.ok.injEq] at h₁
      subst h₁
      obtain ⟨hconsecutive, hshapes⟩ := ih hrest
      refine ⟨⟨rfl, ?_⟩, fun slots hslots id hid => ?_⟩
      · simpa [Nat.add_assoc] using hconsecutive
      · rcases List.mem_cons.mp hslots with rfl | hslots
        · simp at hid
        · exact hshapes slots hslots id hid
  | case3 first index count entries id hid ih =>
      obtain ⟨rest, hrest, h₁⟩ := bind_eq_ok.mp h
      simp only [Except.ok.injEq] at h₁
      subst h₁
      obtain ⟨hconsecutive, hshapes⟩ := ih hrest
      refine ⟨⟨rfl, ?_⟩, fun slots hslots id' hid' => ?_⟩
      · simpa [Nat.add_assoc] using hconsecutive
      · rcases List.mem_cons.mp hslots with rfl | hslots
        · obtain rfl : id = id' := Option.some.inj hid'
          exact Array.mem_of_getElem? hid
        · exact hshapes slots hslots id' hid'
  | case4 => simp at h
  | case5 => simp at h

theorem ObjectDirectory.sum_entries (d : ObjectDirectory) :
    (d.entries.map (·.2)).sum = d.counts.foldr (· + ·) 0 := by
  cases d with
  | shared count => simp [entries, counts]
  | partitioned tables => simp [entries, counts, List.sum, Function.comp_def]

/-! ### The nodes that are set up

Before a section is read, every entry of a table has its node: an object without fields, or an array
without elements. The number of bytes that are left is compared with the number of these nodes
first. -/

theorem toList_blankNodes {tables : List ObjectSlots} {arrays : Nat} :
    (blankNodes registry tables arrays).toList =
      tables.flatMap (fun slots => (slots.blank registry).toList) ++
        List.replicate arrays (Node.array []) := by
  have hfold : ∀ (nodes : Array Node),
      (tables.foldl (fun nodes slots => nodes ++ slots.blank registry) nodes).toList =
        nodes.toList ++ tables.flatMap (fun slots => (slots.blank registry).toList) := by
    induction tables with
    | nil => simp
    | cons slots tables ih => intro nodes; simp [ih]
  simp [blankNodes, hfold]

theorem length_blanks {tables : List ObjectSlots} :
    (tables.flatMap fun slots => (slots.blank registry).toList).length =
      (tables.map ObjectSlots.count).sum := by
  induction tables with
  | nil => rfl
  | cons slots tables ih => simp [ObjectSlots.blank]

theorem size_blankNodes {tables : List ObjectSlots} {arrays : Nat} :
    (blankNodes registry tables arrays).size = (tables.map ObjectSlots.count).sum + arrays := by
  rw [← Array.length_toList, toList_blankNodes, List.length_append, length_blanks,
    List.length_replicate]

/-- An array has no elements before it is read. -/
theorem getElem?_blankNodes {tables : List ObjectSlots} {arrays i : Nat} (h : i < arrays) :
    (blankNodes registry tables arrays)[(tables.map ObjectSlots.count).sum + i]? =
      some (.array []) := by
  rw [← Array.getElem?_toList, toList_blankNodes, List.getElem?_append_right, length_blanks]
  · simp [h]
  · rw [length_blanks]
    exact Nat.le_add_right _ _

/-- Nodes are set up if there are at least as many bytes left as there are entries in tables. -/
theorem allocate_eq_ok {directory : Directory} {tags : Array Tag} {tables : List ObjectSlots}
    (h : allocate registry directory tags s = .ok tables t) :
    directory.nodeEntries ≤ s.input.remaining ∧
      objectSlots registry tags s.input.offset 0 directory.objects.entries = .ok tables ∧
      t = { s with nodes := blankNodes registry tables directory.arrays } := by
  obtain ⟨_, _, hget, h₁⟩ := run_bind_eq_ok.mp h
  simp only [run_get, EStateM.Result.ok.injEq] at hget
  obtain ⟨rfl, rfl⟩ := hget
  obtain ⟨_, _, hensure, h₂⟩ := run_bind_eq_ok.mp h₁
  obtain ⟨hentries, rfl⟩ := Decode.ensure_eq_ok.mp hensure
  obtain ⟨found, _, hcheck, h₃⟩ := run_bind_eq_ok.mp h₂
  obtain ⟨hfound, rfl⟩ := Decode.check_eq_ok.mp hcheck
  obtain ⟨_, _, hmodify, h₄⟩ := run_bind_eq_ok.mp h₃
  simp only [run_modify, EStateM.Result.ok.injEq, true_and] at hmodify
  obtain ⟨rfl, rfl⟩ := run_pure_eq_ok.mp h₄
  exact ⟨hentries, hfound, hmodify.symm⟩

/-! ### Tags

An entry of the tag table is a name, and what it must be depends on its position: the name of a
built-in tag at the first positions, that of a registered shape behind them. Nothing asks for all
built-in tags, so a table may end among them. -/

/-- An entry of the tag table is a name: at the index of a built-in tag that of the tag, behind
these that of a registered shape. -/
theorem readTagEntry_eq_ok {index : Nat} {tag : Tag} :
    readTagEntry registry index s = .ok tag t ↔
      ∃ name, Decode.fromSection Read.text s = .ok name t ∧
        ((∃ b, Builtin.ofIndex? index = some b ∧ b.name = name ∧ tag = .builtin b) ∨
          (Builtin.ofIndex? index = none ∧ ∃ id, registry.lookup name = some id ∧ tag = .shape id)) := by
  constructor
  · intro h
    obtain ⟨offset, u, hoffset, h₁⟩ := run_bind_eq_ok.mp h
    obtain ⟨-, rfl⟩ := Decode.offset_eq_ok.mp hoffset
    obtain ⟨name, u, hname, h₂⟩ := run_bind_eq_ok.mp h₁
    cases hbuiltin : Builtin.ofIndex? index with
    | some b =>
        rw [hbuiltin] at h₂
        obtain ⟨_, _, hensure, h₃⟩ := run_bind_eq_ok.mp h₂
        obtain ⟨hb, rfl⟩ := Decode.ensure_eq_ok.mp hensure
        obtain ⟨rfl, rfl⟩ := run_pure_eq_ok.mp h₃
        exact ⟨name, hname, .inl ⟨b, rfl, hb, rfl⟩⟩
    | none =>
        rw [hbuiltin] at h₂
        cases hrequire : registry.require name with
        | error e => simp [hrequire] at h₂
        | ok id =>
            simp only [hrequire] at h₂
            obtain ⟨rfl, rfl⟩ := run_pure_eq_ok.mp h₂
            exact ⟨name, hname, .inr ⟨rfl, id, Registry.require_eq_ok.mp hrequire, rfl⟩⟩
  · rintro ⟨name, hname, h⟩
    rw [readTagEntry, run_bind_of_ok (Decode.offset_eq_ok.mpr ⟨rfl, rfl⟩), run_bind_of_ok hname]
    rcases h with ⟨b, hbuiltin, hb, rfl⟩ | ⟨hbuiltin, id, hlookup, rfl⟩
    · simp only [hbuiltin]
      exact run_bind_of_ok (Decode.ensure_eq_ok (u := ()) |>.mpr ⟨hb, rfl⟩)
    · simp only [hbuiltin, Registry.require_eq_ok.mpr hlookup, run_pure]

/-- Reading the tag table takes bytes of its section only, and the shapes of its tags are
registered. -/
theorem readTagTable_eq_ok {expected : Nat} {tags : List Tag} (hs : s.source.Ascending)
    (h : readTagTable registry expected s = .ok tags t) :
    Took 0 s t ∧ ∀ id, .shape id ∈ tags → id.index < registry.shapes.length := by
  obtain ⟨_, u, hcount, h₁⟩ := run_bind_eq_ok.mp h
  have hu := Decode.took_count hs hcount
  obtain ⟨-, ht, hids⟩ := Decode.replicate_induction
    (motive := fun done v => Took 0 u v ∧ ∀ id, .shape id ∈ done → id.index < registry.shapes.length)
    h₁ ⟨.refl hu.ascending, by simp⟩ fun done v tag w _ hv hstep => by
      obtain ⟨name, hname, htag⟩ := readTagEntry_eq_ok.mp hstep
      have hw := Decode.took_fromSection hv.1.ascending Read.consumes_text hname
      refine ⟨(hv.1.trans hw).mono (Nat.zero_le _), fun id hid => ?_⟩
      rcases List.mem_append.mp hid with hid | hid
      · exact hv.2 id hid
      · obtain rfl := List.mem_singleton.mp hid
        obtain ⟨b, -, -, hb⟩ | ⟨-, found, hlookup, hfound⟩ := htag
        · simp at hb
        · exact Tag.shape.inj hfound ▸ (Registry.lookup_eq_some hlookup).1
  exact ⟨(hu.trans ht).mono (Nat.zero_le _), hids⟩

theorem readStringTable_eq_ok {expected : Nat} {strings : List String} (hs : s.source.Ascending)
    (h : readStringTable expected s = .ok strings t) : Took 0 s t := by
  obtain ⟨_, u, hcount, h₁⟩ := run_bind_eq_ok.mp h
  have hu := Decode.took_count hs hcount
  have ht := Decode.took_fromSection hu.ascending
    ((Read.consumes_replicate Read.consumes_text expected).mono (Nat.zero_le _)) h₁
  exact (hu.trans ht).mono (Nat.zero_le _)

/-! ### The input of the sections

What is in front of the sections is read in five parts. The first four take bytes and leave the
nodes alone, the last one sets up the nodes and takes no bytes. -/

/-- What holds once the tables are set up for `bytes`. -/
structure SetUp (registry : Registry) (bytes : List UInt8) (input : DecodeInput)
    (s : DecodeState) : Prop where
  registry_eq : input.registry = registry
  size_eq : input.size = bytes.length
  tags_lt : ∀ id, .shape id ∈ input.tags → id.index < registry.shapes.length
  tables : Consecutive 0 input.tables input.firstArray
  table_shapes : ∀ slots ∈ input.tables, ∀ id, slots.shape = some id → .shape id ∈ input.tags
  nodes : s.nodes = blankNodes registry input.tables input.arrayCount
  ascending : s.source.Ascending
  left_le : s.left ≤ bytes.length
  shapeRefs : s.shapeRefs = []

/-- A section whose content only takes bytes. -/
theorem keeps_inSection {α : Type} {label : String} {content : Decode α} {a : α}
    (hs : s.source.Ascending) (h : Decode.inSection label content s = .ok a t)
    (hcontent : ∀ u v, u.source.Ascending → content u = .ok a v → Took 0 u v) : s.Keeps t := by
  obtain ⟨body, rest, hread, hrun, -⟩ := Decode.inSection_eq_ok.mp h
  have hstart := pays_section hs hread
  have ht := (hcontent _ t hstart.ascending hrun).keeps
  exact ⟨ht.nodes, ht.shapeRefs, hstart.trans ht.pays⟩

/-- The parts in front of the sections are read one after another, and then the nodes are set up. -/
theorem readInput_eq_ok {input : DecodeInput} (h : readInput registry s = .ok input t) :
    ∃ wire s₁ directory s₂ tags s₃ strings s₄ tables,
      Decode.fromInput readHeader s = .ok wire s₁ ∧
      Decode.fromInput (readDirectory wire) s₁ = .ok directory s₂ ∧
      Decode.inSection "tags" (readTagTable registry directory.tags) s₂ = .ok tags s₃ ∧
      Decode.inSection "strings" (readStringTable directory.strings) s₃ = .ok strings s₄ ∧
      allocate registry directory tags.toArray s₄ = .ok tables t ∧
      input = ⟨registry, wire, tags.toArray, strings.toArray, tables, directory.objectEntries,
        directory.arrays, s.input.remaining⟩ := by
  obtain ⟨_, _, hget, h₁⟩ := run_bind_eq_ok.mp h
  simp only [run_get, EStateM.Result.ok.injEq] at hget
  obtain ⟨rfl, rfl⟩ := hget
  obtain ⟨wire, s₁, hwire, h₂⟩ := run_bind_eq_ok.mp h₁
  obtain ⟨directory, s₂, hdirectory, h₃⟩ := run_bind_eq_ok.mp h₂
  obtain ⟨tags, s₃, htags, h₄⟩ := run_bind_eq_ok.mp h₃
  obtain ⟨strings, s₄, hstrings, h₅⟩ := run_bind_eq_ok.mp h₄
  obtain ⟨tables, s₅, hallocate, h₆⟩ := run_bind_eq_ok.mp h₅
  obtain ⟨rfl, rfl⟩ := run_pure_eq_ok.mp h₆
  exact ⟨wire, s₁, directory, s₂, tags, s₃, strings, s₄, tables, hwire, hdirectory, htags, hstrings,
    hallocate, rfl⟩

/-- Whatever the bytes are: if the parts in front of the sections can be read, all of `SetUp`
holds. -/
theorem setUp_of_readInput {bytes : List UInt8} {input : DecodeInput}
    (h : readInput registry (Decode.start bytes) = .ok input t) :
    SetUp registry bytes input t := by
  have hstart : (Decode.start bytes).source.Ascending := by
    intro map hmap
    simp [Decode.start] at hmap
  obtain ⟨wire, s₁, directory, s₂, tags, s₃, strings, s₄, tables, hwire, hdirectory, htags, hstrings,
    hallocate, rfl⟩ := readInput_eq_ok h
  have k₁ := Decode.keeps_fromInput hstart consumes_readHeader hwire
  have k₂ := k₁.trans (Decode.keeps_fromInput k₁.pays.ascending (consumes_readDirectory wire)
    hdirectory)
  obtain ⟨body, rest, hread, htable, -⟩ := Decode.inSection_eq_ok.mp htags
  have hsection := pays_section k₂.pays.ascending hread
  obtain ⟨htook, hlt⟩ := readTagTable_eq_ok hsection.ascending htable
  have k₃ := k₂.trans (keeps_inSection k₂.pays.ascending htags fun _ _ hu hrun =>
    (readTagTable_eq_ok hu hrun).1)
  have k₄ := k₃.trans (keeps_inSection k₃.pays.ascending hstrings fun _ _ hu hrun =>
    readStringTable_eq_ok hu hrun)
  obtain ⟨-, hslots, rfl⟩ := allocate_eq_ok hallocate
  obtain ⟨hconsecutive, hshapes⟩ := objectSlots_eq_ok hslots
  rw [ObjectDirectory.sum_entries, Nat.zero_add] at hconsecutive
  refine ⟨rfl, rfl, ?_, hconsecutive, ?_, rfl, k₄.pays.ascending, ?_, k₄.shapeRefs⟩
  · simpa using hlt
  · simpa using hshapes
  · have hleft := k₄.pays.left_le
    simpa [DecodeState.left, Decode.start, Reader.remaining, StreamReader.unread_eq, Reader.ofBytes]
      using hleft

/-- Every node of a table is matched by a byte that is still to be read. -/
theorem SetUp.tableEntries_eq {bytes : List UInt8} {input : DecodeInput}
    (h : SetUp registry bytes input s) :
    input.tableEntries = input.firstArray ∧ s.nodes.size = input.firstArray + input.arrayCount := by
  have hentries : input.tableEntries = input.firstArray := by
    simpa [DecodeInput.tableEntries] using h.tables.sum_eq
  refine ⟨hentries, ?_⟩
  rw [h.nodes, size_blankNodes, ← hentries, DecodeInput.tableEntries]

namespace DecodeInput

variable {input : DecodeInput}

/-- Every position that reading goes to without looking is there: the shapes of tags,
declared types and tables in the registry, and the entries of all tables in an arena
of `arena` nodes. -/
structure InRange (input : DecodeInput) (arena : Nat) : Prop where
  tags : ∀ id, .shape id ∈ input.tags → id.index < input.registry.shapes.length
  declared : ∀ shape, ∀ field ∈ input.registry.fields shape, ∀ id ∈ field.type.shapeIds,
    id.index < input.registry.shapes.length
  tableShapes : ∀ slots ∈ input.tables, ∀ id, slots.shape = some id →
    id.index < input.registry.shapes.length
  tables : ∀ slots ∈ input.tables, slots.first + slots.count ≤ input.firstArray
  arrays : input.firstArray + input.arrayCount ≤ arena

theorem inRange_of_setUp {registry : Registry} {bytes : List UInt8} (hr : registry.Valid)
    (h : SetUp registry bytes input s) : input.InRange s.nodes.size where
  tags := h.registry_eq ▸ h.tags_lt
  declared _ _ hfield _ hid := by
    rw [h.registry_eq] at hfield ⊢
    exact hr.declared_lt hfield hid
  tableShapes slots hslots id hid := by
    rw [h.registry_eq]
    exact h.tags_lt id (h.table_shapes slots hslots id hid)
  tables _ hslots := (h.tables.bounds hslots).2
  arrays := Nat.le_of_eq h.tableEntries_eq.2.symm

end DecodeInput

/-- A tree is decoded in three steps: what is in front of the sections is read, then the
sections up to the end of the bytes, and the whole is checked. -/
theorem readSections_of_decode {bytes : List UInt8} {tree : Tree}
    (h : decode bytes registry = .ok tree) :
    ∃ input s root t, readInput registry (Decode.start bytes) = .ok input s ∧
      input.readSections s = .ok root t ∧ t.input.expectEnd "module" = .ok () ∧
      tree = ⟨t.nodes, root⟩ ∧ checkTree registry tree t.shapeRefs.reverse = .ok () := by
  simp only [decode, EStateM.run] at h
  cases hrun : readModule registry (Decode.start bytes) with
  | error e t => simp [hrun] at h
  | ok root t =>
      simp only [hrun, bind_eq_ok, Except.ok.injEq] at h
      obtain ⟨_, hcheck, rfl⟩ := h
      obtain ⟨input, s, hinput, h₁⟩ := run_bind_eq_ok.mp hrun
      obtain ⟨value, u, hsections, h₂⟩ := run_bind_eq_ok.mp h₁
      obtain ⟨_, _, hget, h₃⟩ := run_bind_eq_ok.mp h₂
      simp only [run_get, EStateM.Result.ok.injEq] at hget
      obtain ⟨rfl, rfl⟩ := hget
      obtain ⟨_, _, hcheckEnd, h₄⟩ := run_bind_eq_ok.mp h₃
      obtain ⟨hend, rfl⟩ := Decode.check_eq_ok.mp hcheckEnd
      obtain ⟨rfl, rfl⟩ := run_pure_eq_ok.mp h₄
      exact ⟨input, s, value, _, hinput, hsections, hend, rfl, hcheck⟩

/-- A tree that is decoded was read from sections that were set up for its bytes, and was
checked. -/
theorem decode_eq_ok {bytes : List UInt8} {tree : Tree} (h : decode bytes registry = .ok tree) :
    ∃ input s root t, SetUp registry bytes input s ∧ input.readSections s = .ok root t ∧
      tree = ⟨t.nodes, root⟩ ∧ checkTree registry tree t.shapeRefs.reverse = .ok () := by
  obtain ⟨input, s, root, t, hinput, hsections, -, hrest⟩ := readSections_of_decode h
  exact ⟨input, s, root, t, setUp_of_readInput hinput, hsections, hrest⟩

/-- A module with both pairs in place. The inner one is read first. -/
def pairsInPlace : List UInt8 :=
  [137, 87, 101, 98, 65, 83, 77, 13, 10, 26, 10, 14, 104, 121, 97, 115, 116, 45, 109, 111, 100, 117,
    108, 101, 47, 49, 0, 4, 12, 0, 0, 0, 0, 0, 0, 0, 0, 0, 0, 0, 0, 0, 0, 0, 79, 0, 0, 0, 12, 0, 0,
    0, 3, 97, 110, 121, 5, 97, 114, 114, 97, 121, 6, 111, 98, 106, 101, 99, 116, 7, 98, 111, 111, 108,
    101, 97, 110, 6, 115, 116, 114, 105, 110, 103, 7, 105, 110, 116, 101, 103, 101, 114, 6, 110, 117,
    109, 98, 101, 114, 4, 110, 117, 108, 108, 4, 116, 114, 117, 101, 5, 102, 97, 108, 115, 101, 6,
    100, 111, 117, 98, 108, 101, 4, 80, 97, 105, 114, 79, 0, 0, 0, 4, 0, 0, 0, 0, 0, 0, 0, 4, 0, 0,
    0, 4, 0, 0, 0, 0, 0, 0, 0, 4, 0, 0, 0, 4, 0, 0, 0, 0, 0, 0, 0, 4, 0, 0, 0, 6, 0, 0, 0, 11, 11,
    1, 11, 2, 7, 6, 0, 0, 0]

theorem decode_pairsInPlace : decode pairsInPlace .pairs = .ok .pairs :=
  eq_ok_of_toOption (by decide +kernel)

end Module

end SyntaxPack
