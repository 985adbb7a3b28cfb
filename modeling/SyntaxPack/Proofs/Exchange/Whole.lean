import SyntaxPack.Proofs.Exchange.GrownStreams
import SyntaxPack.Proofs.Exchange.Opened
/-!
# SyntaxPack.Proofs.Exchange.Whole

A whole module whose segments have grown.

The sections are judged one after another. What has grown in the header's part, in a
table, in the arrays or in the root is refused at the end of its section, and what has
grown in a value stream once the last section is done. So a module that is accepted is
accepted with no other segments than its own, by every registry that agrees with the
first one on the shapes that the tag table names.
-/

namespace SyntaxPack

namespace Module

open Segment

variable {registry registry' : Registry} {rel : ShapeId → ShapeId → Prop}
  {stream : Nat → List UInt8 → Prop} {grown : String → Nat → Prop} {input input' : DecodeInput}
  {s t : DecodeState} {root : Value}

/-! ### The sections that hold values -/

/-- The sections behind the value streams. -/
def DecodeInput.readNodes (input : DecodeInput) : Decode Value := do
  input.tables.forM fun slots => Decode.inSection slots.label (input.readTable slots)
  Decode.inSection "arrays" input.readArrays
  Decode.inSection "root" (input.slot input.objectFields (.tagged .any))

theorem DecodeInput.readSections_eq (input : DecodeInput) : input.readSections = (do
    input.readStreams
    let root ← input.readNodes
    Decode.check (← get).source.expectEnd
    pure root) := by
  simp only [readSections, readNodes, bind_assoc]

theorem phase_readNodes (h : DecodeInput.Alike rel input input') (stream : Nat → List UInt8 → Prop)
    (hrun : input.readNodes s = .ok root t) :
    ∃ segs, readNodeSegments (input.tables.map ObjectSlots.label) s.input = .ok segs t.input ∧
      Phase rel stream (root = ·) input'.readNodes s t segs := by
  obtain ⟨_, u, htables, h₁⟩ := run_bind_eq_ok.mp hrun
  obtain ⟨_, v, harrays, hroot⟩ := run_bind_eq_ok.mp h₁
  obtain ⟨tables, hframes, hphase₁⟩ := DecodeInput.phase_tables h stream h.tables htables
  obtain ⟨arrays, hframe₂, hphase₂⟩ := DecodeInput.phase_of_parallel rel stream harrays
    (fun p hp => DecodeInput.parallel_readArrays (hp ▸ DecodeInput.Alike.refl input))
    (fun p hp => DecodeInput.parallel_readArrays (p := p) (hp ▸ h))
  obtain ⟨last, hframe₃, hphase₃⟩ := DecodeInput.phase_of_parallel rel stream hroot
    (fun p hp => DecodeInput.parallel_readRoot (hp ▸ DecodeInput.Alike.refl input))
    (fun p hp => DecodeInput.parallel_readRoot (p := p) (hp ▸ h))
  refine ⟨tables ++ ([.framed "arrays" arrays] ++ [.framed "root" last]), ?_,
    hphase₁.bind fun _ _ => hphase₂.bind fun _ _ => hphase₃⟩
  rw [readNodeSegments, run_bind_of_ok hframes, run_bind_of_ok hframe₂, run_bind_of_ok hframe₃]
  rfl

/-- All sections behind the strings. The value streams come first, and are settled last. -/
theorem run_readSections (h : DecodeInput.Alike rel input input')
    (hrun : input.readSections s = .ok root t) :
    ∃ segs, readBodySegments input.wire.valueStreams (input.tables.map ObjectSlots.label) s.input =
        .ok segs t.input ∧
      ∀ (grown : String → Nat → Prop) (segs' : List Segment) (s' : DecodeState) (rest : List UInt8)
        (offset : Nat), Level rel (fun _ _ => False) s s' →
        List.Forall₂ (Grows grown) segs segs' → s'.input = ⟨unframe segs' ++ rest, offset⟩ →
        Judged grown segs segs' (input'.readSections s') fun root' t' => root = root' ∧
          t.nodes = t'.nodes ∧ List.Forall₂ (ShapeRef.Same rel) t.shapeRefs t'.shapeRefs ∧
          t'.input = ⟨rest, offset + (unframe segs').length⟩ := by
  rw [DecodeInput.readSections_eq] at hrun
  obtain ⟨_, u, hstreams, h₁⟩ := run_bind_eq_ok.mp hrun
  obtain ⟨root, v, hnodes, h₂⟩ := run_bind_eq_ok.mp h₁
  rw [run_bind_of_ok run_get] at h₂
  obtain ⟨_, w, hcheck, h₃⟩ := run_bind_eq_ok.mp h₂
  obtain ⟨rfl, rfl⟩ := run_pure_eq_ok.mp h₃
  obtain ⟨hend, rfl⟩ := Decode.check_eq_ok.mp hcheck
  obtain ⟨streams, hframe, hsimulate⟩ := run_readStreams h hstreams
  obtain ⟨nodes, hframes, -⟩ := phase_readNodes h (fun _ _ => False) hnodes
  refine ⟨streams ++ nodes, ?_, fun grown segs' s' rest offset hs hsegs hinput => ?_⟩
  · rw [readBodySegments, run_bind_of_ok hframe, run_bind_of_ok hframes]
    rfl
  · obtain ⟨streams', nodes', rfl, hstreams', hnodes'⟩ := exists_of_forall₂_append hsegs
    rw [unframe_append, List.append_assoc] at hinput
    obtain ⟨stream, u', hrun', hu, huInput, hsettles⟩ :=
      hsimulate grown streams' s' _ offset hs hstreams' hinput
    obtain ⟨found, hframes', hphase⟩ := phase_readNodes h stream hnodes
    obtain rfl : found = nodes := by simpa using hframes'.symm.trans hframes
    rw [DecodeInput.readSections_eq, run_bind_of_ok hrun']
    rcases hphase grown nodes' u' rest _ hu hnodes' huInput with
      ⟨rfl, root', v', hrun'', rfl, hv, hvInput⟩ | ⟨label, n, origin, v', hgrown, hrun''⟩
    · -- Every section has come to its end, so only the streams can have grown.
      rw [run_bind_of_ok hrun'', run_bind_of_ok run_get]
      rcases hv.expectEnd hend with ⟨hend', hsame⟩ | ⟨key, more, origin, hkey, hmore, hend'⟩
      · refine .inl ⟨by rw [hsettles.same hsame], root, v', ?_, rfl, hv.nodes, hv.shapeRefs, ?_⟩
        · rw [hend']
          rfl
        · rw [hvInput, unframe_append, List.length_append, Nat.add_assoc]
      · refine .inr ⟨_, more.length, origin, v', hsettles.grown key more hkey hmore, ?_⟩
        rw [hend']
        rfl
    · exact .inr ⟨label, n, origin, v', hgrown, run_bind_of_error hrun''⟩

/-! ### The module -/

/-- The segments of a module are those that its decoding goes through. -/
theorem segments_eq {bytes body : List UInt8} {opening : Opening} {nodes : List Segment}
    {r r' r'' : Reader} (hopening : readOpening (.ofBytes bytes) = .ok opening r)
    (hstrings : readFramed "strings" r = .ok (.framed "strings" body) r')
    (htells : opening.Tells input)
    (hnodes : readBodySegments input.wire.valueStreams (input.tables.map ObjectSlots.label) r' =
      .ok nodes r'') :
    readSegments (.ofBytes bytes) =
      .ok ((opening.segments ++ [.framed "strings" body]) ++ nodes) r'' := by
  rw [readSegments, run_bind_of_ok hopening, run_bind_of_ok hstrings, htells.wire, htells.labels,
    run_bind_of_ok hnodes, List.append_assoc]
  rfl

/-- A module that has grown is judged up to the end of its last section. -/
theorem judged_sections (hr : registry.Valid) (hr' : registry'.Valid) {bytes : List UInt8}
    (hinput : readInput registry (Decode.start bytes) = .ok input s)
    (hsections : input.readSections s = .ok root t) (hend : t.input.unread = [])
    (hagree : ∀ id, .shape id ∈ input.tags → registry.Agree registry' (registry.shapeName id)) :
    ∃ opening r segs, readOpening (.ofBytes bytes) = .ok opening r ∧ opening.Tells input ∧
      readSegments (.ofBytes bytes) = .ok segs t.input ∧
      ∀ (grown : String → Nat → Prop) (segs' : List Segment) (tail : List UInt8),
        List.Forall₂ (Grows grown) segs segs' →
        Judged grown segs segs'
          ((readInput registry' >>= DecodeInput.readSections) (Decode.start (unframe segs' ++ tail)))
          fun root' t' => root = root' ∧ t.nodes = t'.nodes ∧
            List.Forall₂ (ShapeRef.Same (registry.Corresponds registry')) t.shapeRefs t'.shapeRefs ∧
            t'.input = ⟨tail, (unframe segs').length⟩ := by
  obtain ⟨opening, r, body, hopening, hstrings, htells, hsimulate⟩ :=
    run_readInput hr hr' (fun _ _ => False) hinput hagree
  obtain ⟨nodes, hnodes, -⟩ := run_readSections (.refl input) hsections
  have hsegments := segments_eq hopening hstrings htells hnodes
  refine ⟨opening, r, _, hopening, htells, hsegments, fun grown segs' tail hsegs => ?_⟩
  have hbytes : bytes = _ := unframes_readSegments _ _ _ hsegments
  have hleft := unframes_readBodySegments _ _ _ _ _ hnodes
  have hlength := length_unframe_le hsegs
  obtain ⟨first, second, rfl, hfirst, hsecond⟩ := exists_of_forall₂_append hsegs
  have hlengthNodes := length_unframe_le hsecond
  rw [hend, List.append_nil] at hbytes hleft
  have hstart : Level (registry.Corresponds registry') (fun _ _ => False) (Decode.start bytes)
      (Decode.start (unframe (first ++ second) ++ tail)) :=
    ⟨.none, fun _ _ hfalse => hfalse.elim, rfl, .nil⟩
  have hfront : (Decode.start (unframe (first ++ second) ++ tail)).input =
      ⟨unframe first ++ (unframe second ++ tail), 0⟩ := by
    rw [unframe_append, List.append_assoc]
    rfl
  -- A module that has grown is not shorter, so every count that fitted still fits.
  have hsize : (Decode.start bytes).input.remaining ≤
      (Decode.start (unframe (first ++ second) ++ tail)).input.remaining := by
    rw [hbytes]
    simp only [Decode.start, Reader.ofBytes, Reader.remaining, List.length_append]
    exact Nat.le_trans hlength (Nat.le_add_right _ _)
  have hroom : s.input.remaining ≤ (unframe second ++ tail).length := by
    rw [Reader.remaining, hleft, List.length_append]
    exact Nat.le_trans hlengthNodes (Nat.le_add_right _ _)
  refine (hsimulate grown first _ _ 0 hstart hfirst hfront hsize hroom).bind fun input' u hu => ?_
  obtain ⟨halike, hu, huInput⟩ := hu
  obtain ⟨found, hfound, hjudge⟩ := run_readSections halike hsections
  obtain rfl : found = nodes := by simpa using hfound.symm.trans hnodes
  refine (hjudge grown second u tail _ hu hsecond huInput).imp fun root' t' ht => ?_
  obtain ⟨hroot, hsame, hrefs, hrest⟩ := ht
  refine ⟨hroot, hsame, hrefs, ?_⟩
  rw [hrest, unframe_append, List.length_append, Nat.zero_add]

/-- References that are checked under one registry are checked under the other. -/
theorem checkTree_same (hnames : ∀ id id', rel id id' → registry.shapeName id = registry'.shapeName id')
    {tree : Tree} {refs refs' : List ShapeRef} (hrefs : List.Forall₂ (ShapeRef.Same rel) refs refs')
    (h : checkTree registry tree refs = .ok ()) : checkTree registry' tree refs' = .ok () := by
  obtain ⟨_, hchecks, hcycle⟩ := bind_eq_ok.mp h
  refine bind_eq_ok.mpr ⟨(), forM_eq_ok.mpr fun ref' href' => ?_, hcycle⟩
  obtain ⟨ref, href, hnode, hshape, hindex⟩ := exists_left_of_forall₂ hrefs href'
  have hcheck := forM_eq_ok.mp hchecks ref href
  simp only [checkShapeRef] at hcheck ⊢
  rwa [← hnode, ← hnames _ _ hshape, ← hindex]

/-- What becomes of a module that is accepted when its substreams grow and bytes follow it,
under any registry that agrees on the shapes of its tag table. -/
theorem exists_segments_of_decode (hr : registry.Valid) {bytes : List UInt8} {tree : Tree}
    (h : decode bytes registry = .ok tree) :
    ∃ segs, segments bytes = some segs ∧ unframe segs = bytes ∧
      (∀ name ∈ (tagNames bytes).drop Builtin.count, registry.Agree registry name) ∧
      ∀ registry' : Registry, registry'.Valid →
        (∀ name ∈ (tagNames bytes).drop Builtin.count, registry.Agree registry' name) →
        ∀ (grown : String → Nat → Prop) (segs' : List Segment) (tail : List UInt8),
          List.Forall₂ (Grows grown) segs segs' →
          (segs' = segs ∧ decode (unframe segs' ++ tail) registry' = if tail = [] then .ok tree
            else .error (.decode (.trailingBytes "module" bytes.length tail.length))) ∨
          ∃ label n offset, grown label n ∧ decode (unframe segs' ++ tail) registry' =
            .error (.decode (.trailingBytes label offset n)) := by
  obtain ⟨input, s, root, t, hinput, hsections, hend, rfl, hcheck⟩ := readSections_of_decode h
  replace hend : t.input.unread = [] := by simpa [Reader.expectEnd, Reader.isAtEnd] using hend
  have hsetUp := setUp_of_readInput hinput
  have hself : ∀ id, .shape id ∈ input.tags → registry.Agree registry (registry.shapeName id) :=
    fun id hid => Registry.agree_self (hr.lookup_shapeName (hsetUp.tags_lt id hid))
  obtain ⟨opening, r, segs, hopening, htells, hsegments, -⟩ :=
    judged_sections hr hr hinput hsections hend hself
  have hbytes : bytes = unframe segs ++ t.input.unread := unframes_readSegments _ _ _ hsegments
  rw [hend, List.append_nil] at hbytes
  have hnames : tagNames bytes = opening.names := by simp only [tagNames, hopening]
  rw [hnames]
  refine ⟨segs, by simp only [segments, hsegments], hbytes.symm, fun name hname => ?_,
    fun registry' hr' hagree grown segs' tail hsegs => ?_⟩
  · obtain ⟨id, hid⟩ := htells.registered name hname
    exact Registry.agree_self (hsetUp.registry_eq ▸ hid)
  have hagree' : ∀ id, .shape id ∈ input.tags →
      registry.Agree registry' (registry.shapeName id) := fun id hid =>
    hagree _ (hsetUp.registry_eq ▸ htells.shapes id hid)
  obtain ⟨_, _, found, -, -, hfound, hjudge⟩ := judged_sections hr hr' hinput hsections hend hagree'
  obtain rfl : found = segs := by simpa using hfound.symm.trans hsegments
  have hmodule : readModule registry' = (do
      let root ← readInput registry' >>= DecodeInput.readSections
      Decode.check ((← get).input.expectEnd "module")
      pure root) := by
    simp only [readModule, bind_assoc]
  -- If no section has grown, only bytes behind the module can be in excess.
  rcases hjudge grown segs' tail hsegs with
    ⟨rfl, root', t', hrun, rfl, hnodes, hrefs, hrest⟩ | ⟨label, n, offset, t', hgrown, hrun⟩
  · have hrun' : readModule registry' (Decode.start (unframe segs' ++ tail)) = (do
        Decode.check (Reader.expectEnd ⟨tail, bytes.length⟩ "module")
        pure root : Decode Value) t' := by
      rw [hmodule, run_bind_of_ok hrun, run_bind_of_ok run_get, hrest, ← hbytes]
    refine .inl ⟨rfl, ?_⟩
    simp only [decode, EStateM.run, hrun']
    by_cases htail : tail = []
    · have hcheck' := checkTree_same (fun _ _ hid => hid.2.2) (List.rel_reverse hrefs) hcheck
      rw [hnodes] at hcheck' ⊢
      have hend' : Reader.expectEnd ⟨tail, bytes.length⟩ "module" = .ok () := by
        simp [Reader.expectEnd, Reader.isAtEnd, htail]
      rw [if_pos htail, run_bind_of_ok (Decode.check_eq_ok.mpr ⟨hend', rfl⟩)]
      exact bind_eq_ok.mpr ⟨(), hcheck', rfl⟩
    · have hend' : Reader.expectEnd ⟨tail, bytes.length⟩ "module" =
          .error (.trailingBytes "module" bytes.length tail.length) := by
        simp [Reader.expectEnd, Reader.isAtEnd, Reader.remaining, htail]
      rw [if_neg htail, hend']
      rfl
  · refine .inr ⟨label, n, offset, hgrown, ?_⟩
    simp only [decode, EStateM.run, hmodule]
    rw [run_bind_of_error hrun]

end Module

end SyntaxPack
