import SyntaxPack.Proofs.Decode.Owned
import SyntaxPack.Proofs.Decode.Streams
import SyntaxPack.Proofs.RoundTrip.Layout
/-!
# SyntaxPack.Proofs.RoundTrip.Whole

A whole module is read back.

The bytes of a module that was written are read to their end, and every node of the result is
a copy of its origin. What the decoder checks at the end is not settled here: the references
into the shared table lead to objects of the right shapes, but there may be a cycle.
-/

namespace SyntaxPack

open Token (sectionBytes streamBytes allBytes)
open StreamWriter (Streamed Stored Sent)

namespace Module

namespace Replay

variable {c : Replay} {s t : DecodeState} {bytes rest : List UInt8} {tokens later : List Token}
  {origins : List NodeId} {w : StreamWriter}

/-! ### Value streams

The streams come first. Once they are stored, all tokens of the sections are loaded, in front of any
section that has been entered. -/

/-- The streams that are stored are those that the decoder finds. -/
theorem run_readStreams {filled : TagMap (List UInt8)} {parts : List (List UInt8)}
    (hfilled : filled.Ascending) (hkeys : ∀ p ∈ filled, p.1 < (tagsOf c.shapes).length)
    (hlt : (tagsOf c.shapes).length < UInt32.size)
    (hparts : List.Forall₂ (fun (p : Nat × List UInt8) part => ∃ label framed,
      WriteInput.frame label p.2 = .ok framed ∧ part = Bytes.fixed 4 p.1 ++ framed) filled parts)
    (hs : s.input.unread = parts.flatten ++ rest) (hstreams : s.source.streams = some []) :
    ∃ results t, Decode.replicate filled.length c.decoder.readStream s = .ok results t ∧
      t.input.unread = rest ∧ t.source.body = s.source.body ∧ ∃ map, t.source.streams = some map ∧
        map.Ascending ∧ ∀ key, (map.find? key).map (·.unread) = filled.find? key := by
  obtain ⟨results, t, hrun, hlength, hunread, hbody, map, hmap, hascending, hfind⟩ :=
    @Decode.replicate_progress Unit s
      (fun done t => t.input.unread = (parts.drop done.length).flatten ++ rest ∧
        t.source.body = s.source.body ∧ ∃ map, t.source.streams = some map ∧ map.Ascending ∧
          ∀ key, (map.find? key).map (·.unread) = TagMap.find? (filled.take done.length) key)
      filled.length c.decoder.readStream
      ⟨hs, rfl, [], hstreams, TagMap.ascending_nil, fun _ => rfl⟩
      fun done t hlt' ⟨hunread, hbody, map, hmap, hascending, hfind⟩ => by
        have hltParts : done.length < parts.length := hparts.length_eq ▸ hlt'
        obtain ⟨p, hp, label, framed, hframe, hpart⟩ :=
          getElem?_of_forall₂ hparts (List.getElem?_eq_getElem hltParts)
        have hkey := hkeys p (List.mem_of_getElem? hp)
        have hnew : map.find? p.1 = none := by
          have hnone := hfind p.1
          rw [hfilled.find?_take hp, Option.map_eq_none_iff] at hnone
          exact hnone
        have hinput : t.input = ⟨Bytes.fixed 4 p.1 ++
            (framed ++ ((parts.drop (done.length + 1)).flatten ++ rest)), t.input.offset⟩ := by
          rw [List.drop_eq_getElem_cons hltParts, List.flatten_cons, hpart, List.append_assoc,
            List.append_assoc] at hunread
          rw [← hunread]
        have htag : p.1 < c.decoder.tags.size := by simpa using hkey
        refine ⟨(), _, DecodeInput.run_readStream htag (Nat.lt_trans hkey hlt)
          (mapError_eq_ok.mp hframe) hinput hmap hnew, ?_, hbody, _, rfl,
          hascending.insert _ _, fun key => ?_⟩
        · rw [List.length_append, List.length_singleton]
        · rw [TagMap.find?_insert, List.length_append, List.length_singleton,
            hfilled.find?_take_succ hp, ← hfind]
          split <;> rfl
  rw [hlength, ← hparts.length_eq.symm, List.drop_length, List.flatten_nil, List.nil_append]
    at hunread
  rw [hlength, List.take_length] at hfind
  exact ⟨results, t, hrun, hunread, hbody, map, hmap, hascending, hfind⟩

/-- The value streams of a module are found with the tokens that were sent there. -/
theorem run_streamSection (hw : Streamed c.input.config.valueStreams tokens w)
    (htags : ∀ token ∈ tokens, ∀ index, token.stream = some index → index < (tagsOf c.shapes).length)
    (hlt : (tagsOf c.shapes).length < UInt32.size) (h : c.writer.streamSection w = .ok bytes)
    (hs : InFront (bytes ++ rest) s) :
    ∃ t, c.decoder.readStreams s = .ok () t ∧ t.input.unread = rest ∧
      t.source.Loaded c.input.config.valueStreams [] tokens := by
  have hstored := hw.stored
  cases hstreams : c.input.config.valueStreams with
  | false =>
      have hwire : c.input.config.wire.valueStreams = false := hstreams
      simp only [WriteInput.streamSection, hwire, Bool.not_false, if_true] at h
      obtain rfl := Except.ok.inj h
      refine ⟨s, ?_, hs.unread, hs.body, fun _ => hs.streams, fun hon => absurd hon Bool.false_ne_true⟩
      simp [DecodeInput.readStreams, hwire]
  | true =>
      have hwire : c.input.config.wire.valueStreams = true := hstreams
      rw [hstreams] at hstored
      simp only [WriteInput.streamSection, hwire, Bool.not_true, Bool.false_eq_true, if_false] at h
      obtain ⟨count, hcount, h₁⟩ := bind_eq_ok.mp h
      obtain ⟨parts, hparts, h₂⟩ := bind_eq_ok.mp h₁
      obtain rfl := Except.ok.inj h₂
      obtain ⟨hcountLt, rfl⟩ := lt_of_ofCount hcount
      have hall : List.Forall₂ (fun (p : Nat × List UInt8) part => ∃ label framed,
          WriteInput.frame label p.2 = .ok framed ∧ part = Bytes.fixed 4 p.1 ++ framed)
          w.filled parts := by
        refine (mapM_eq_ok.mp hparts).imp fun p part hpart => ?_
        obtain ⟨framed, hframe, h₃⟩ := bind_eq_ok.mp hpart
        exact ⟨_, framed, hframe, (Except.ok.inj h₃).symm⟩
      have hkeys : ∀ p ∈ w.filled, p.1 < (tagsOf c.shapes).length := fun p hp => by
        obtain ⟨-, token, htoken, hstream⟩ := hstored.nonempty p hp
        exact htags token htoken p.1 hstream
      rw [List.append_assoc] at hs
      obtain ⟨u, hrun, hu⟩ := hs.fromInput (Read.takes_nat32 hcountLt)
      obtain ⟨results, t, hloop, hunread, hbody, map, hmap, hascending, hfind⟩ :=
        @run_readStreams c { u with source := { u.source with streams := some [] } } rest w.filled
          parts hstored.ascending hkeys hlt hall hu.unread rfl
      refine ⟨t, ?_, hunread, ?_, fun hoff => absurd hoff.symm Bool.false_ne_true, fun _ =>
        ⟨map, hmap, hascending, fun key => ?_⟩⟩
      · simp only [DecodeInput.readStreams, hwire, if_true]
        rw [run_bind_of_ok hrun, run_bind_of_ok run_modify, run_bind_of_ok hloop]
        rfl
      · rw [hbody]
        exact hu.body
      · rw [hfind]
        exact hstored.find? rfl key

/-! ### Sections

A section moves its own tokens from those that come later to those that are next. At its end none of
them is left, and the tokens of the sections behind it are still to come. -/

variable {file : Reader} {first last : Nat} {framed : List UInt8} {label : String}

/-- When a section is entered, its tokens are next, and those of the sections behind it come
later. -/
theorem At.enter (hs : c.At ⟨tokens ++ later, file, first⟩ origins [] s)
    (hframe : WriteInput.frame label (sectionBytes c.input.config.valueStreams tokens) = .ok framed)
    (hfile : file.unread = framed ++ rest) :
    ∃ body, Read.substream s.input = .ok body ⟨rest, file.offset + framed.length⟩ ∧
      c.At ⟨later, ⟨rest, file.offset + framed.length⟩, first⟩ origins tokens { s with
        input := ⟨rest, file.offset + framed.length⟩, source := { s.source with body := body } } := by
  have hread := Read.run_substream (mapError_eq_ok.mp hframe) rest file.offset
  rw [← hfile] at hread
  have hinput : s.input = file := hs.file
  have hbody : s.source.body.unread = [] := hs.loaded.body
  refine ⟨_, by rw [hinput]; exact hread, rfl, hs.loaded.enter (file.offset + 4), ?_, hs.order,
    hs.hasNode, hs.size_eq, hs.inPlace, hs.copied, hs.shapeRefs⟩
  -- What is left becomes less by the length in front of the section.
  have hleft := hs.left_le
  have hlength := (lt_of_frame hframe).2
  simp only [DecodeState.left, StreamReader.unread_eq, Reader.remaining, hinput, hfile, hbody,
    List.length_append, List.length_nil] at hleft ⊢
  omega

/-- A section of nodes is read to its end. -/
theorem ReadsNodes.inSection {content : Decode Unit} (hcontent : c.ReadsNodes first last content tokens)
    (label' : String) (hs : c.At ⟨tokens ++ later, file, first⟩ origins [] s)
    (hframe : WriteInput.frame label (sectionBytes c.input.config.valueStreams tokens) = .ok framed)
    (hfile : file.unread = framed ++ rest) :
    ∃ t origins' file', Decode.inSection label' content s = .ok () t ∧ file'.unread = rest ∧
      c.At ⟨later, file', last⟩ origins' [] t := by
  obtain ⟨body, hread, hu⟩ := hs.enter hframe hfile
  rw [← List.append_nil tokens] at hu
  obtain ⟨t, origins', hrun, ht⟩ := hcontent later _ origins [] _ hu
  exact ⟨t, origins', _, Decode.inSection_eq_ok.mpr ⟨_, _, hread, hrun, ht.loaded.body_end _⟩, rfl, ht⟩

/-- The object tables are read one after another. -/
theorem reads_tables (hb : c.IsBuilt) (hr : c.input.registry.Valid) {tables before : List ObjectTable}
    (htables : c.module.objects.tables = before ++ tables) {sections : List (List Token)}
    {parts : List (List UInt8)}
    (hsections : List.Forall₂ (fun (table : ObjectTable) tokens =>
      c.writer.objectSection table.table = .ok tokens) tables sections)
    (hparts : List.Forall₂ (fun tokens part => ∃ label, WriteInput.frame label
      (sectionBytes c.input.config.valueStreams tokens) = .ok part) sections parts)
    (hs : c.At ⟨sections.flatten ++ later, file, (before.map (·.table.keys.length)).sum⟩ origins [] s)
    (hfile : file.unread = parts.flatten ++ rest) :
    ∃ t origins' file', (slotsOf c.input.registry (before.map (·.table.keys.length)).sum tables).forM
        (fun slots => Decode.inSection slots.label (c.decoder.readTable slots)) s = .ok ⟨⟩ t ∧
      file'.unread = rest ∧ c.At ⟨later, file', c.objectCount⟩ origins' [] t := by
  induction hsections generalizing before parts file origins s with
  | nil =>
      cases hparts
      have hcount : c.objectCount = (before.map (·.table.keys.length)).sum := by
        rw [objectCount, htables, List.append_nil]
      rw [List.flatten_nil, List.nil_append] at hs hfile
      exact ⟨s, origins, file, rfl, hfile, hcount ▸ hs⟩
  | @cons table tokens tables sections hsection _ ih =>
      cases hparts with | @cons _ part _ parts hpart hrest => ?_
      obtain ⟨label, hframe⟩ := hpart
      rw [List.flatten_cons, List.append_assoc] at hs hfile
      have htable := @reads_table c tokens _ hb hr before tables table htables rfl
        (table.shape.elim ObjectTables.sharedLabel (ObjectTables.labelOf ∘ c.input.registry.shapeName))
        hsection
      obtain ⟨u, origins₁, file₁, hrun, hfile₁, hu⟩ := htable.inSection _ hs hframe hfile
      have hsum : (before.map (·.table.keys.length)).sum + table.table.keys.length =
          ((before ++ [table]).map (·.table.keys.length)).sum := by simp
      rw [hsum] at hu
      obtain ⟨t, origins₂, file₂, hrun₂, hfile₂, ht⟩ :=
        ih (by rw [htables, List.append_assoc]; rfl) hrest hu hfile₁
      refine ⟨t, origins₂, file₂, ?_, hfile₂, ht⟩
      rw [slotsOf, hsum, List.forM, run_bind_of_ok hrun]
      exact hrun₂

/-! ### The whole module

The phases in their order, from the state after the strings to the end of the bytes. -/

theorem hasNode_of_mem_order (hb : c.IsBuilt) {id : NodeId} (h : id ∈ c.order) :
    c.module.HasNode c.input.tree c.input.registry id := by
  rcases List.mem_append.mp h with hobject | harray
  · obtain ⟨table, htable, hkey⟩ := List.mem_flatMap.mp hobject
    obtain ⟨own, -, hid, -⟩ := object_of_table hb htable hkey
    exact hid
  · exact (hb.array_of_mem_keys harray).2

/-- Once the value streams are found, the nodes of the tables are there, but none has been
read. -/
theorem at_start (hb : c.IsBuilt) (hsetUp : SetUp c.input.registry bytes c.decoder s)
    (hsize : c.size = bytes.length) (hkeeps : s.Keeps t)
    (hloaded : t.source.Loaded c.input.config.valueStreams [] tokens) :
    c.At ⟨tokens, t.input, 0⟩ c.order [] t := by
  have hnodes := hsetUp.tableEntries_eq.2
  have hleft := Nat.le_trans hkeeps.pays.left_le hsetUp.left_le
  have hpast : ∀ i (origin : NodeId), c.order[i]? = some origin → ¬ (i < 0 ∨ c.order.length ≤ i) := by
    intro i origin hget hi
    have hlt := (List.getElem?_eq_some_iff.mp hget).1
    omega
  refine ⟨rfl, hloaded, ?_, List.prefix_refl _, fun id hid => hasNode_of_mem_order hb hid, ?_,
    fun i origin hi hget => absurd (Or.inr hi) (hpast i origin hget),
    fun i origin hget hi => absurd hi (hpast i origin hget), fun ref href => ?_⟩
  · rw [hsize]
    exact Nat.le_trans (Nat.le_add_right _ 0) hleft
  · rw [hkeeps.nodes, hnodes, length_order]
  · rw [hkeeps.shapeRefs, hsetUp.shapeRefs] at href
    exact absurd href List.not_mem_nil

/-- A tree that a module is read back as: every node is a copy of its origin. The nodes of
the tables come first, and what follows are objects that stand in no table, each in a slot
of its own. -/
structure IsCopy (c : Replay) (origins : List NodeId) (tree : Tree) : Prop where
  size_eq : tree.size = origins.length
  order : c.order <+: origins
  hasNode : ∀ id ∈ origins, c.module.HasNode c.input.tree c.input.registry id
  inPlace : ∀ i origin, c.order.length ≤ i → origins[i]? = some origin →
    c.input.config.inlineObjects = true ∧ origin ∉ c.order
  node : ∀ i origin, origins[i]? = some origin →
    ∃ node, tree.node? ⟨i⟩ = some node ∧ c.CopiesNode origins origin node
  root : Copies c.rank origins c.input.tree.root tree.root
  owned : ∀ id : NodeId, c.order.length ≤ id.index → uses id [tree.root] tree.nodes ≤ 1

/-- The value streams and the object tables are read. -/
theorem run_readTables (l : c.Layout bytes) (hb : Built c.input c.shapes c.rank c.module)
    (hr : c.input.registry.Valid) (hsetUp : SetUp c.input.registry bytes c.decoder s)
    (hsize : c.size = bytes.length) (hs : InFront l.rest s) :
    ∃ u v origins file, c.decoder.readStreams s = .ok () u ∧
      c.decoder.tables.forM (fun slots => Decode.inSection slots.label (c.decoder.readTable slots)) u =
        .ok ⟨⟩ v ∧ file.unread = l.arrays ++ l.root ∧
      c.At ⟨l.arrayTokens ++ l.rootTokens, file, c.objectCount⟩ origins [] v := by
  have hproper := (l.sectionTokens hb hr).proper
  have htagsLt := (takes_readDirectory hb.toLocated l.writes_directory).1
  obtain ⟨u, hstreams, hunread, hloaded⟩ := run_streamSection l.sent.streamed
    (fun token htoken => (hproper token htoken).stream_lt) htagsLt l.writes_streams hs
  have hkeeps := DecodeInput.readStreams_eq_ok hsetUp.ascending hstreams
  have hu := at_start hb.toLocated hsetUp hsize hkeeps hloaded
  have hnone : c.module.objects.tables = [] ++ c.module.objects.tables := rfl
  obtain ⟨v, origins₁, file₁, htables, hfile₁, hv⟩ :=
    reads_tables hb.toLocated hr hnone l.writes_objects l.frames_objects hu hunread
  exact ⟨u, v, origins₁, file₁, hstreams, htables, hfile₁, hv⟩

/-- The sections behind the strings are read to the end of the module. -/
theorem run_readSections (l : c.Layout bytes) (hb : Built c.input c.shapes c.rank c.module)
    (hr : c.input.registry.Valid)
    (hlength : ∀ id ∈ c.module.arrays.keys, ∀ elements, c.input.tree.array? id = some elements →
      elements.length < UInt32.size)
    (hsetUp : SetUp c.input.registry bytes c.decoder s) (hsize : c.size = bytes.length)
    (hs : InFront l.rest s) :
    ∃ root t origins file, c.decoder.readSections s = .ok root t ∧ file.unread = [] ∧
      c.At ⟨[], file, c.order.length⟩ origins [] t ∧ Copies c.rank origins c.input.tree.root root := by
  obtain ⟨u, v, origins₁, file₁, hstreams, htables, hfile₁, hv⟩ :=
    run_readTables l hb hr hsetUp hsize hs
  have harrays := reads_arrays hb.toLocated hr hlength l.writes_arrays
  obtain ⟨w, origins₂, file₂, harrays, hfile₂, hw⟩ :=
    harrays.inSection "arrays" hv l.frames_arrays hfile₁
  rw [← List.append_nil l.rootTokens] at hw
  rw [← List.append_nil l.root] at hfile₂
  obtain ⟨body, hread, henter⟩ := hw.enter l.frames_root hfile₂
  rw [← List.append_nil l.rootTokens] at henter
  -- the root is read in a slot for any value
  have hslot := @reads_slot c origins₂ _ _ _ _ hb.toLocated (reads_objectFields hb.toLocated hr) _
    hb.fits_root _ l.writes_root
  obtain ⟨root, t, origins, hroot, -, ht, hcopies⟩ := hslot _ _ _ _ (List.prefix_refl _) henter
  refine ⟨root, t, origins, _, ?_, rfl, ht, hb.root_eq ▸ hcopies⟩
  have hsection := Decode.inSection_eq_ok.mpr ⟨_, _, hread, hroot, ht.loaded.body_end "root"⟩
  rw [DecodeInput.readSections, run_bind_of_ok hstreams, run_bind_of_ok htables,
    run_bind_of_ok harrays, run_bind_of_ok hsection]
  rw [run_bind_of_ok (show (get : Decode DecodeState) t = .ok t t from run_get)]
  rw [run_bind_of_ok (Decode.check_eq_ok.mpr ⟨ht.loaded.expectEnd, rfl⟩)]
  rfl

/-- A recorded reference into the shared table leads to an object of its shape. -/
theorem IsCopy.checkShapeRef {tree : Tree} (h : c.IsCopy origins tree) {ref : ShapeRef}
    {origin : NodeId} (hget : origins[ref.node.index]? = some origin)
    (hshape : c.input.tree.shape? c.input.registry origin = some ref.shape) :
    checkShapeRef c.input.registry tree ref = .ok () := by
  obtain ⟨node, hnode, hcopies⟩ := h.node _ _ hget
  cases hcopies with
  | array harray _ =>
      obtain ⟨object, hobject, -⟩ := Tree.shape?_eq_some_iff.mp hshape
      simp [Tree.array?_eq_none_of_object hobject] at harray
  | @object shape values hown _ =>
      obtain rfl : shape = ref.shape := Option.some.inj (hown.symm.trans hshape)
      have hfound := Tree.object?_eq_some_iff.mpr hnode
      have hname : (c.input.registry.objectOf ref.shape values).shape =
          c.input.registry.shapeName ref.shape := DecodeInput.shape_ofFields _ _
      simp [Module.checkShapeRef, hfound, hname]

/-- What the decoder makes of a module that was written: a copy, unless that has a cycle. -/
theorem decode_eq (hb : Built c.input c.shapes c.rank c.module) (hr : c.input.registry.Valid)
    (hlength : ∀ id ∈ c.module.arrays.keys, ∀ elements, c.input.tree.array? id = some elements →
      elements.length < UInt32.size)
    (hsize : c.size = bytes.length) (h : c.writer.bytes = .ok bytes) :
    ∃ origins tree, c.IsCopy origins tree ∧ decode bytes c.input.registry =
      match tree.findCycle with
      | some node => .error (.decode (.cyclicReference node.index))
      | none => .ok tree := by
  obtain ⟨l⟩ := nonempty_layout h
  obtain ⟨s, hinput, hs⟩ := run_readInput hb.toLocated hr l.writes_directory l.writes_tags
    l.frames_tags l.writes_strings l.frames_strings l.bytes_eq hsize (l.room hb hr)
  have hsetUp := setUp_of_readInput hinput
  obtain ⟨root, t, origins, file, hsections, hfile, ht, hroot⟩ :=
    run_readSections l hb hr hlength hsetUp hsize hs
  -- That no node in place is used twice holds of everything that is decoded.
  have howned := DecodeInput.readSections_owned (DecodeInput.inRange_of_setUp hr hsetUp) hr
    hsetUp.ascending (DecodeInput.owned_of_setUp hsetUp) hsections
  have hcopy : c.IsCopy origins ⟨t.nodes, root⟩ :=
    ⟨ht.size_eq, ht.order, ht.hasNode, ht.inPlace, fun i origin hget =>
      ht.copied i origin hget (Nat.lt_or_ge i c.order.length), hroot, fun id hid => by
        rw [length_order] at hid
        have huses : uses id [root] t.nodes ≤ if id.index < t.nodes.size then 1 else 0 := howned id hid
        split at huses
        · exact huses
        · exact Nat.le_succ_of_le huses⟩
  refine ⟨origins, ⟨t.nodes, root⟩, hcopy, ?_⟩
  have hend : t.input.expectEnd "module" = .ok () := by
    have hinput : t.input = file := ht.file
    simp [Reader.expectEnd, Reader.isAtEnd, hinput, hfile]
  have hrun : readModule c.input.registry (Decode.start bytes) = .ok root t := by
    rw [readModule, run_bind_of_ok hinput, run_bind_of_ok hsections]
    rw [run_bind_of_ok (show (get : Decode DecodeState) t = .ok t t from run_get)]
    rw [run_bind_of_ok (Decode.check_eq_ok.mpr ⟨hend, rfl⟩)]
    rfl
  have hrefs : t.shapeRefs.reverse.forM (Module.checkShapeRef c.input.registry ⟨t.nodes, root⟩) =
      .ok () := forM_eq_ok.mpr fun ref href => by
    obtain ⟨origin, hget, hshape⟩ := ht.shapeRefs ref (List.mem_reverse.mp href)
    exact hcopy.checkShapeRef hget hshape
  simp only [decode, EStateM.run, hrun, checkTree, hrefs, ok_bind]
  cases Tree.findCycle ⟨t.nodes, root⟩ <;> rfl

/-- Where a module that was written is decoded, no array in it is too long. -/
theorem lengths_of_decode (hb : Built c.input c.shapes c.rank c.module) (hr : c.input.registry.Valid)
    (hsize : c.size = bytes.length) (h : c.writer.bytes = .ok bytes) {tree : Tree}
    (hdecode : decode bytes c.input.registry = .ok tree) :
    ∀ id ∈ c.module.arrays.keys, ∀ elements, c.input.tree.array? id = some elements →
      elements.length < UInt32.size := by
  obtain ⟨l⟩ := nonempty_layout h
  obtain ⟨s, hinput, hs⟩ := run_readInput hb.toLocated hr l.writes_directory l.writes_tags
    l.frames_tags l.writes_strings l.frames_strings l.bytes_eq hsize (l.room hb hr)
  obtain ⟨u, v, origins, file, hstreams, htables, hfile, hv⟩ :=
    run_readTables l hb hr (setUp_of_readInput hinput) hsize hs
  obtain ⟨input, s', root, t, hinput', hsections, -⟩ := readSections_of_decode hdecode
  obtain ⟨rfl, rfl⟩ := EStateM.Result.ok.inj (hinput.symm.trans hinput')
  -- Decoding is deterministic, so the accepted run reaches the arrays in the state found above.
  obtain ⟨u', v', w, hstreams', htables', harrays, -⟩ := DecodeInput.readSections_eq_ok hsections
  obtain ⟨-, rfl⟩ := EStateM.Result.ok.inj (hstreams.symm.trans hstreams')
  obtain ⟨-, rfl⟩ := EStateM.Result.ok.inj (htables.symm.trans htables')
  obtain ⟨body, rest, hread, hrun, -⟩ := Decode.inSection_eq_ok.mp harrays
  obtain ⟨body', hread', henter⟩ := hv.enter l.frames_arrays hfile
  obtain ⟨rfl, rfl⟩ := EStateM.Result.ok.inj (hread.symm.trans hread')
  rw [← List.append_nil l.arrayTokens] at henter
  exact lengths_of_readArrays hb.toLocated hr l.writes_arrays henter hrun

end Replay

end Module

end SyntaxPack
