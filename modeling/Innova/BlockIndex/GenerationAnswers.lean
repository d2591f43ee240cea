import Innova.BlockIndex.ValidateGeneration

/-! What a validated generation answers. Its records, active ids and derived entries are those the
root was made of; a lookup by hash is right exactly as far as the hash index still is. -/
namespace Innova.BlockIndex
open Lib Chainstate GenerationDir

section Generations
variable [Digest] {c : Contents} {d d' d₀ : GenerationDir} {cov cov' : Covered}

/-! ## Files a writer laid out -/

section
omit [Digest]

private theorem mapM_ok {α β : Type} {f : α → Except String β} {xs : List α} {ys : List β} (ran : xs.mapM f = .ok ys) :
    xs.length = ys.length ∧ (∀ y ∈ ys, ∃ x ∈ xs, f x = .ok y) ∧
      ∀ (i : Nat) x, xs[i]? = some x → ∃ y, ys[i]? = some y ∧ f x = .ok y := by
  induction xs generalizing ys with
  | nil =>
    cases ran
    simp
  | cons x xs ih =>
    rw [List.mapM_cons] at ran
    obtain ⟨y, first, ran⟩ := except_bind_ok ran
    obtain ⟨rest, later, ran⟩ := except_bind_ok ran
    cases ran
    obtain ⟨length, each, places⟩ := ih later
    refine ⟨congrArg Nat.succ length, ?_, ?_⟩
    · intro y' member
      rcases List.mem_cons.mp member with rfl | member
      · exact ⟨x, List.mem_cons_self, first⟩
      · obtain ⟨x', inside, made⟩ := each y' member
        exact ⟨x', List.mem_cons_of_mem _ inside, made⟩
    · intro i x' found
      cases i with
      | zero =>
        obtain rfl : x = x' := by simpa using found
        exact ⟨y, rfl, first⟩
      | succ i => exact places i x' found

private theorem HeaderKind.encode_length (k : HeaderKind) (magic : (ascii k.magic).length = 8) (generation : Nat) :
    (k.encode generation).length = 40 := by
  simp [encode, magic]

private theorem entryRegion_body (length : front.length = header) :
    entryRegion (some (front ++ body)) header width count =
      if body.length < count * width then none else some (body.take (count * width)) := by
  subst length
  simp [entryRegion, Bytes.slice]

private theorem entryAt_body {entries : List Bytes} (length : front.length = header)
    (sized : ∀ e ∈ entries, e.length = width)
    (found : entries[i]? = some e) : entryAt (front ++ entries.flatten) header width i = some e := by
  subst length
  have room : i < entries.length := (List.getElem?_eq_some_iff.mp found).1
  have within : i * width + width ≤ entries.length * width := by
    rw [← Nat.succ_mul]
    exact Nat.mul_le_mul_right width room
  rw [entryAt, if_neg (by rw [List.length_append, Bytes.flatten_length sized]; omega),
    Bytes.slice_entry sized front found]

private theorem derivedHeader_widths (generation entryCount : Nat) (binding : Hash) :
    (derivedHeaderFields generation entryCount binding).map List.length = derivedHeaderWidths := by
  have magic : (ascii "INNBDRV1").length = 8 := by decide +kernel
  simp [derivedHeaderFields, derivedHeaderWidths, magic, binding.property]

private theorem derivedHeader_length (generation entryCount : Nat) (binding : Hash) :
    (encodeDerivedHeader generation entryCount binding).length = 80 := by
  simp [encodeDerivedHeader, List.length_flatten, derivedHeader_widths, derivedHeaderWidths]

end

/-- What the writer left in a directory. -/
structure Written (c : Contents) (d : GenerationDir) : Prop where
  generation : c.generation ≠ 0
  manifest : d.manifest = some c.manifest
  records : ∃ encoded, c.records.mapM encodeRecord = .ok encoded ∧
    d.records = some (recordsHeader.encode c.generation ++ encoded.flatten)
  index : ∃ index, putHashes c.records 1 (newHashIndex c.generation) = .ok index ∧
    d.hashIndex = some (.ok fun key => .ok (index key))
  active : ∃ encoded, c.active.mapM encodeActiveEntry = .ok encoded ∧
    d.active = some (activeHeader.encode c.generation ++ encoded.flatten)
  root : ∃ cov, d.readCovered c.generation c.records.length = .ok cov ∧
    d.derived = some (c.derivedFile c.derived.length (Digest.sha256 (cov.rootInput c.generation c.manifest)))

private theorem readCovered_sealed (derived : d.derived = some (c.derivedFile n root)) (entryCount : Nat) (root' : Hash)
    (m : Option FixedManifest) :
    ({ d with manifest := m, derived := some (c.derivedFile entryCount root') } : GenerationDir).readCovered
    generation count =
      d.readCovered generation count := by
  have same : entryRegion (some (c.derivedFile entryCount root')) 80 56 count = entryRegion d.derived 80 56 count := by
    rw [derived, Contents.derivedFile, Contents.derivedFile, entryRegion_body (derivedHeader_length _ _ _),
      entryRegion_body (derivedHeader_length _ _ _)]
  unfold readCovered
  simp only [same, derived]
  rfl

omit [Digest] in
private theorem of_mapError {α : Type} {x : Except String α} {f : String → String} {a : α}
    (ran : x.mapError f = .ok a) : x = .ok a := by
  cases x with
  | error e => cases ran
  | ok b =>
    cases ran
    rfl

private theorem write_ok (written : c.write = .ok d₀) : Written c d₀ := by
  simp only [Contents.write, except_bind_ok_iff, refuse_ok] at written
  obtain ⟨_, nonzero, records, encodedRecords, index, put, active, encodedActive, written⟩ := written
  split at written
  · cases written
  obtain ⟨staged, ensured, written⟩ := except_bind_ok written
  obtain ⟨root, computed, written⟩ := except_bind_ok written
  cases written
  obtain ⟨leaves, rfl⟩ := ensureCandidateLeafMetadata_ok (of_mapError ensured)
  obtain ⟨cov, read, rfl⟩ := recomputedRoot_ok (of_mapError computed)
  refine ⟨nonzero, rfl, ⟨records, encodedRecords, rfl⟩, ⟨index, put, rfl⟩, ⟨active, encodedActive, rfl⟩, cov, ?_, rfl⟩
  rw [← read]
  exact readCovered_sealed (c := c) rfl _ _ _

/-! ## The root tells the files apart -/

/-- The hash has no collision on what two directories put under their roots. -/
structure NoCollision (generation : Nat) (m : FixedManifest) (cov cov' : Covered) : Prop where
  records : Digest.sha256 cov.records = Digest.sha256 cov'.records → cov.records = cov'.records
  active : Digest.sha256 cov.active = Digest.sha256 cov'.active → cov.active = cov'.active
  derived : Digest.sha256 cov.derived = Digest.sha256 cov'.derived → cov.derived = cov'.derived
  root : Digest.sha256 (cov.rootInput generation m) = Digest.sha256 (cov'.rootInput generation m) →
    cov.rootInput generation m = cov'.rootInput generation m

structure SameEntries (cov cov' : Covered) : Prop where
  records : cov.records = cov'.records
  active : cov.active = cov'.active
  derived : cov.derived = cov'.derived

private theorem same_of_root (free : NoCollision generation m cov cov')
    (root : Digest.sha256 (cov.rootInput generation m) = Digest.sha256 (cov'.rootInput generation m)) :
    SameEntries cov cov' := by
  have input := free.root root
  have width (h : Hash) : h.val.length = 32 := h.property
  have parts := Bytes.flatten_inj (by simp [width]) input
  simp only [List.cons.injEq, Subtype.val_inj, true_and, and_true] at parts
  obtain ⟨records, active, -, derived, -⟩ := parts
  exact ⟨free.records records, free.active active, free.derived derived⟩

/-! ## Reads of the same entries -/

section Reads
omit [Digest]

private theorem entryRegion_file (read : entryRegion file header width n = some bytes) : ∃ raw, file = some raw := by
  cases file with
  | none => simp [entryRegion] at read
  | some raw => exact ⟨raw, rfl⟩

variable (reads : Reads d generation count cov) (reads' : Reads d' generation count cov') (same : SameEntries cov cov')
include reads reads' same

private theorem Reads.readRecord (manifest : d.manifest = some m) (manifest' : d'.manifest = some m)
    (recordCount : m.recordCount = count) (id : Nat) : d.readRecord id = d'.readRecord id := by
  have read := reads.records
  have read' := reads'.records
  obtain ⟨file, found⟩ := entryRegion_file read
  obtain ⟨file', found'⟩ := entryRegion_file read'
  rw [found] at read
  rw [found', ← same.records] at read'
  simp only [GenerationDir.readRecord, manifest, manifest', found, found']
  split
  · rfl
  split
  · rfl
  rw [entryAt_eq read read' (by omega)]

private theorem Reads.readEntry (height : Int) : d.readEntry height = d'.readEntry height := by
  obtain ⟨entries, opened, read⟩ := reads.active
  obtain ⟨entries', opened', read'⟩ := reads'.active
  obtain ⟨file, found, length⟩ := openActive_ok opened
  obtain ⟨file', found', length'⟩ := openActive_ok opened'
  rw [found] at read
  rw [found', ← same.active] at read'
  have equal : entries = entries' := by
    have one := entryRegion_length read
    have two := entryRegion_length read'
    omega
  subst equal
  simp only [GenerationDir.readEntry, found, found']
  split
  · rfl
  by_cases inside : height.toNat < entries
  · rw [entryAt_eq read read' inside]
  · rw [entryAt, if_pos (by omega), entryAt, if_pos (by omega)]

private theorem Reads.readDerived (manifest : d.manifest = some m) (manifest' : d'.manifest = some m)
    (opened : d.openDerived m.generation = .ok count) (opened' : d'.openDerived m.generation = .ok count) (id : Nat) :
    d.readDerived id = d'.readDerived id := by
  have read := reads.derived
  have read' := reads'.derived
  obtain ⟨file, found⟩ := entryRegion_file read
  obtain ⟨file', found'⟩ := entryRegion_file read'
  rw [found] at read
  rw [found', ← same.derived] at read'
  simp only [GenerationDir.readDerived, manifest, manifest', found, found', opened, opened']
  split
  · rfl
  rw [entryAt_eq read read' (by omega)]

end Reads

/-! ## The hash index of the writer -/

section Index
omit [Digest]

private theorem hashKey_inj (same : hashKey h = hashKey h') : h = h' := by
  have tails := List.append_cancel_left same
  exact Subtype.ext (List.reverse_injective tails)

private theorem hashKey_length (h : Hash) : (hashKey h).length = 33 := by
  have one : (ascii "h").length = 1 := by decide +kernel
  simp [hashKey, one]

private theorem newHashIndex_hashKey (generation : Nat) (h : Hash) : newHashIndex generation (hashKey h) = none := by
  have other {text : String} (short : (ascii text).length ≠ 33) : hashKey h ≠ ascii text :=
    fun same => short (same ▸ hashKey_length h)
  rw [newHashIndex, if_neg (other (by decide +kernel)), if_neg (other (by decide +kernel)),
    if_neg (other (by decide +kernel))]

private theorem putHashes_spec {records : List Record} {id : Nat} (ran : putHashes records id db = .ok db')
    (h : Hash) : db' (hashKey h) =
      (db (hashKey h) <|> (records.findIdx? fun r => r.hash = h).map fun i => Bytes.le 8 (id + i)) := by
  induction records generalizing id db with
  | nil =>
    cases ran
    simp
  | cons r rest ih =>
    obtain ⟨db₁, put, ran⟩ := except_bind_ok ran
    rw [ih ran, List.findIdx?_cons]
    have shift : ∀ o : Option Nat, (o.map fun i => Bytes.le 8 (id + 1 + i)) = (o.map (· + 1)).map fun i =>
      Bytes.le 8 (id + i) := by
      intro o
      cases o <;> simp [Nat.add_assoc, Nat.add_comm 1]
    rw [shift]
    unfold putHashIndex at put
    by_cases here : r.hash = h
    · subst here
      split at put
      · next fresh =>
        cases put
        simp [fresh]
      · next existing stored =>
        split at put
        · cases put
        split at put
        · cases put
          simp [stored]
        · cases put
    · have apart : hashKey h ≠ hashKey r.hash := fun same => here (hashKey_inj same).symm
      have kept : db₁ (hashKey h) = db (hashKey h) := by
        split at put
        · cases put
          exact Function.update_of_ne apart _ _
        · split at put
          · cases put
          split at put
          · cases put
            rfl
          · cases put
      simp [here, kept]

end Index

omit [Digest] in
private theorem decodeRecordIdValue_le {id : Nat} (positive : id ≠ 0) (fits : id < 2 ^ 64) :
    decodeRecordIdValue (Bytes.le 8 id) = .ok id := by
  have value : Bytes.toNat (Bytes.le 8 id) = id := Bytes.toNat_le_of_lt fits
  simp [decodeRecordIdValue, decodeUint, value, refuse, positive, bind, Except.bind, pure, Except.pure]

omit [Digest] in
/-- The root is stored where validation looks for it. -/
theorem contentBinding_derivedFile (n : Nat) (root : Hash) : contentBinding (c.derivedFile n root) = root := by
  have magic : (ascii "INNBDRV1").length = 8 := by decide +kernel
  apply ByteArr.read_laid
  refine ⟨[ascii "INNBDRV1", Bytes.le 4 2, Bytes.le 4 2, Bytes.le 4 80, Bytes.le 4 56, Bytes.le 8 c.generation,
    Bytes.le 8 n].flatten, Bytes.le 8 0 ++ (c.derived.map encodeDerivedEntry).flatten, ?_, ?_⟩
  · simp [Contents.derivedFile, encodeDerivedHeader, derivedHeaderFields]
  · simp [magic]

/-! ## What the writer's directory answers -/

section Built
variable (written : Written c d₀)
include written

private theorem Written.lookup (few : c.records.length < 2 ^ 64) (h : Hash) : d₀.lookup h = .ok (c.idOf h) := by
  obtain ⟨index, put, found⟩ := written.index
  have stored : index (hashKey h) = (c.records.findIdx? fun r => r.hash = h).map fun i => Bytes.le 8 (1 + i) := by
    rw [putHashes_spec put h, newHashIndex_hashKey]
    simp
  rw [GenerationDir.lookup, found]
  dsimp only
  rw [lookupIn, dbGet, stored, Contents.idOf]
  cases place : c.records.findIdx? fun r => r.hash = h with
  | none => rfl
  | some i =>
    have inside : i < c.records.length := (List.findIdx?_eq_some_iff_getElem.mp place).1
    have value : decodeRecordIdValue (Bytes.le 8 (i + 1)) = .ok (i + 1) := decodeRecordIdValue_le (by omega) (by omega)
    simp [Except.mapError, Nat.add_comm 1, value, bind, Except.bind, pure, Except.pure]

private theorem Written.readRecord {i : Nat} {r : Record} (found : c.records[i]? = some r) :
    d₀.readRecord (i + 1) = .ok r := by
  obtain ⟨encoded, ran, file⟩ := written.records
  obtain ⟨-, each, places⟩ := mapM_ok ran
  have inside : i < c.records.length := (List.getElem?_eq_some_iff.mp found).1
  have sized : ∀ e ∈ encoded, e.length = 228 := by
    intro e member
    obtain ⟨r, -, made⟩ := each e member
    exact encodeRecord_length made
  obtain ⟨e, place, made⟩ := places i r found
  have header : (recordsHeader.encode c.generation).length = 40 := HeaderKind.encode_length _ (by decide +kernel) _
  simp only [GenerationDir.readRecord, written.manifest, file]
  rw [if_neg (by omega), if_neg (by show ¬ c.records.length < i + 1; omega), Nat.add_sub_cancel,
    entryAt_body header sized place]
  exact decode_encodeRecord (c.sized r (List.mem_of_getElem? found)) made

private theorem Written.activeFile : ∃ encoded :
    List Bytes, d₀.active = some (activeHeader.encode c.generation ++ encoded.flatten) ∧
    encoded.length = c.active.length ∧ (∀ e ∈ encoded, e.length = 8) ∧
    ∀ (i : Nat) id, c.active[i]? = some id → ∃ e, encoded[i]? = some e ∧ decodeActiveEntry e = .ok id := by
  obtain ⟨encoded, ran, file⟩ := written.active
  obtain ⟨length, each, places⟩ := mapM_ok ran
  refine ⟨encoded, file, length.symm, ?_, ?_⟩
  · intro e member
    obtain ⟨id, -, made⟩ := each e member
    unfold encodeActiveEntry at made
    split at made
    · cases made
    · cases made
      simp
  · intro i id found
    obtain ⟨e, place, made⟩ := places i id found
    refine ⟨e, place, ?_⟩
    unfold encodeActiveEntry at made
    split at made
    · cases made
    next nonzero =>
    cases made
    have value : Bytes.toNat (Bytes.le 8 id) = id :=
      Bytes.toNat_le_of_lt (c.activeSized id (List.mem_of_getElem? found))
    rw [decodeActiveEntry, if_neg (by simp), value, if_neg nonzero]

private theorem Written.readEntry {height : Int} (low : 0 ≤ height) (high : height < c.active.length) :
    ∃ id, d₀.readEntry height = .ok id := by
  obtain ⟨encoded, file, -, sized, places⟩ := written.activeFile
  obtain ⟨id, found⟩ : ∃ id, c.active[height.toNat]? = some id := ⟨_, List.getElem?_eq_getElem (by omega)⟩
  obtain ⟨e, place, decoded⟩ := places _ id found
  have header : (activeHeader.encode c.generation).length = 40 := HeaderKind.encode_length _ (by decide +kernel) _
  refine ⟨id, ?_⟩
  simp only [GenerationDir.readEntry, file]
  rw [if_neg (by omega), entryAt_body header sized place]
  exact decoded

private theorem Written.active_entries (opened : d₀.openActive c.generation = .ok entries) :
    entries = c.active.length := by
  obtain ⟨file, found, length⟩ := openActive_ok opened
  obtain ⟨encoded, file', size, sized, -⟩ := written.activeFile
  have header : (activeHeader.encode c.generation).length = 40 := HeaderKind.encode_length _ (by decide +kernel) _
  obtain rfl : file = _ := Option.mem_unique found file'
  rw [List.length_append, Bytes.flatten_length sized] at length
  omega

private theorem Written.reader_manifest : d₀.reader.files.manifest = c.manifest.toGenerationManifest := by
  show (d₀.manifest.map FixedManifest.toGenerationManifest).getD {} = _
  rw [written.manifest]
  rfl

/-- Every record of the contents is served under its id. -/
theorem Written.uncached (tip : c.committedTipHeight < 0 ∨ c.committedTipHeight < c.active.length)
    (found : c.records[i]? = some r) : ∃ s, d₀.reader.uncached (i + 1) = .found s ∧ s.id = i + 1 ∧ s.record = r := by
  have inside : i < c.records.length := (List.getElem?_eq_some_iff.mp found).1
  obtain ⟨active, inActive⟩ : ∃ b, d₀.reader.files.inActive (i + 1) r.height = .ok b := by
    unfold GenerationFiles.inActive
    rw [written.reader_manifest]
    split
    · next range =>
      have high : r.height ≤ c.committedTipHeight := range.2
      obtain ⟨id, read⟩ := written.readEntry range.1 (by omega)
      have read' : d₀.reader.files.readEntry r.height = .ok id := read
      exact ⟨_, by rw [read']; rfl⟩
    · exact ⟨_, rfl⟩
  have record : d₀.reader.files.readRecord (i + 1) = .ok r := written.readRecord found
  have load : d₀.reader.load (i + 1) = .ok (d₀.reader.snapshotFromRecord (i + 1) r active) := by
    rw [Reader.load, record]
    show (d₀.reader.files.inActive (i + 1) r.height >>= _) = _
    rw [inActive]
    rfl
  refine ⟨d₀.reader.snapshotFromRecord (i + 1) r active, ?_, Reader.load_id load, ?_⟩
  · have count : ¬ (i + 1 = 0 ∨ d₀.reader.files.manifest.recordCount < i + 1) := by
      rw [written.reader_manifest]
      show ¬ (i + 1 = 0 ∨ c.records.length < i + 1)
      omega
    rw [Reader.uncached, if_neg (by simp [reader]), if_neg count, load]
  · unfold Reader.snapshotFromRecord
    split <;> rfl

private theorem Written.openDerived (few : 80 + c.records.length * 56 < 2 ^ 64) :
    d₀.openDerived c.generation = .ok c.records.length := by
  obtain ⟨cov, -, file⟩ := written.root
  generalize Digest.sha256 (cov.rootInput c.generation c.manifest) = root at file
  have header := derivedHeader_length c.generation c.derived.length root
  have size : (c.derivedFile c.derived.length root).length = 80 + c.records.length * 56 := by
    have entries : ∀ e ∈ c.derived.map encodeDerivedEntry, e.length = 56 := by
      simp [encodeDerivedEntry_length]
    rw [Contents.derivedFile, List.length_append, header, Bytes.flatten_length entries, List.length_map, c.complete]
  have front : (c.derivedFile c.derived.length root).take 80 = encodeDerivedHeader c.generation c.derived.length root :=
    List.take_left' header
  have decoded : decodeDerivedHeader (encodeDerivedHeader c.generation c.derived.length root) c.generation =
      .ok c.records.length := by
    have cut : Bytes.cut derivedHeaderWidths (encodeDerivedHeader c.generation c.derived.length root) =
        derivedHeaderFields c.generation c.derived.length root := by
      rw [← List.append_nil (encodeDerivedHeader _ _ _)]
      exact Bytes.cut_flatten (derivedHeader_widths _ _ _) []
    have count : Bytes.toNat (Bytes.le 8 c.derived.length) = c.records.length := by
      rw [c.complete]
      exact Bytes.toNat_le_of_lt (by norm_num; omega)
    have generation : Bytes.toNat (Bytes.le 8 c.generation) = c.generation := Bytes.toNat_le_of_lt c.generationSized
    have two : Bytes.toNat (Bytes.le 4 2) = 2 := by decide
    have eighty : Bytes.toNat (Bytes.le 4 80) = 80 := by decide
    have width : Bytes.toNat (Bytes.le 4 56) = 56 := by decide
    have reserved : Bytes.toNat (Bytes.le 8 0) = 0 := by decide
    simp [decodeDerivedHeader, cut, derivedHeaderFields, two, eighty, width, reserved, generation,
      written.generation, count]
  simp only [GenerationDir.openDerived, file, front, decoded, size]
  have enough : ¬ 18446744073709551616 ≤ 80 + c.records.length * 56 := by omega
  simp [refuse, enough, bind, Except.bind, pure, Except.pure]

/-- Whatever the hash index holds, the writer's root is found again. -/
theorem Written.validateRoot (few : 80 + c.records.length * 56 < 2 ^ 64) (leaves : d₀.leaves.isSome)
    (nonzero : contentBinding (d₀.derived.getD []) ≠ ByteArr.zero 32) (index : Option LevelDb) :
    ({ d₀ with hashIndex := index } : GenerationDir).validateRoot c.generation c.manifest =
      (.ok (), { d₀ with hashIndex := index }) := by
  obtain ⟨cov, read, file⟩ := written.root
  generalize lost : ({ d₀ with hashIndex := index } : GenerationDir) = d
  have derived : d.derived = d₀.derived := by rw [← lost]
  have opened : d.openDerived c.generation = .ok c.records.length := by rw [← lost]; exact written.openDerived few
  have present : d.leaves.isSome := by rw [← lost]; exact leaves
  have covered : d.readCovered c.generation c.records.length = .ok cov := by rw [← lost]; exact read
  have stored : d.validateDerived c.generation c.manifest = .ok (contentBinding (d₀.derived.getD [])) := by
    rw [validateDerived, opened, derived]
    have count : ¬ c.records.length ≠ c.manifest.recordCount := fun other => other rfl
    simp [refuse, count, bind, Except.bind, pure, Except.pure]
  have root : d.recomputedRoot c.generation c.manifest = .ok (contentBinding (d₀.derived.getD [])) := by
    rw [recomputedRoot, show c.manifest.recordCount = c.records.length from rfl, covered, file]
    exact congrArg Except.ok (contentBinding_derivedFile _ _).symm
  rw [GenerationDir.validateRoot, if_neg (by rw [derived, file]; simp), stored]
  dsimp only
  rw [if_neg nonzero, ensureCandidateLeafMetadata, if_pos present]
  dsimp only
  rw [root]
  simp

end Built

/-! ## What a validated directory answers -/

section Answers
omit [Digest]

/-- Two directories that read alike but for their hash indexes. -/
structure ReadsAlike (d d₀ : GenerationDir) : Prop where
  manifest : d.manifest = d₀.manifest
  records : d.readRecord = d₀.readRecord
  active : d.readEntry = d₀.readEntry
  derived : d.readDerived = d₀.readDerived

private theorem GenerationDir.coherent (d : GenerationDir) : d.reader.Coherent := nofun

variable (alike : ReadsAlike d d₀)
include alike

private theorem ReadsAlike.uncached (id : Nat) : d.reader.uncached id = d₀.reader.uncached id := by
  have readers : d.reader = { d₀.reader with files := { d₀.files with lookup := d.lookup } } := by
    simp only [reader, files, alike.manifest, alike.records, alike.active, alike.derived]
  rw [readers]
  rfl

private theorem ReadsAlike.height (height : Int) : d.answer (.height height) = d₀.answer (.height height) := by
  refine congrArg Reply.block
    (Reader.getActiveByHeight_same d.coherent d₀.coherent rfl ?_ alike.active alike.uncached height)
  simp only [reader, files, alike.manifest]

private theorem ReadsAlike.record (id : Nat) : d.answer (.record id) = d₀.answer (.record id) := by
  refine congrArg Reply.block ?_
  rw [(Reader.getRecordById_spec d.coherent id).1, (Reader.getRecordById_spec d₀.coherent id).1]
  exact alike.uncached id

private theorem ReadsAlike.answers_iff : (∀ q, d.answer q = d₀.answer q) ↔
    ∀ h, d.reader.uncachedHash h = d₀.reader.uncachedHash h := by
  constructor
  · intro all h
    have hash := Reply.block.inj (all (.hash h))
    rwa [Reader.lookupByHash_reply d.coherent, Reader.lookupByHash_reply d₀.coherent] at hash
  · intro hashes q
    cases q with
    | hash h =>
      refine congrArg Reply.block ?_
      rw [Reader.lookupByHash_reply d.coherent, Reader.lookupByHash_reply d₀.coherent]
      exact hashes h
    | record id => exact alike.record id
    | height height => exact alike.height height
    | derived id => exact congrArg Reply.derived (congrFun alike.derived id)

end Answers

omit [Digest] in
private theorem lookup_ne_zero : d.lookup h ≠ .ok (some 0) := by
  intro found
  unfold GenerationDir.lookup at found
  split at found
  · obtain ⟨value, -, found⟩ := except_bind_ok found
    split at found
    · cases found
    · obtain ⟨id, decoded, found⟩ := except_bind_ok found
      cases found
      obtain ⟨_, -, decoded⟩ := except_bind_ok decoded
      obtain ⟨_, nonzero, decoded⟩ := except_bind_ok decoded
      cases decoded
      exact refuse_ok.mp nonzero rfl
  · cases found

section
omit [Digest]

/-- The reply to a hash the index leads to `id`. -/
theorem uncachedHash_some {id : Nat} (found : d.lookup h = .ok (some id)) : d.reader.uncachedHash h =
      match (d.reader.uncached id).snapshot? with
      | some s =>
        if s.record.hash ≠ h then ⟨.corrupt, (d.reader.uncached id).out, some "hashindex/record hash mismatch"⟩
        else d.reader.uncached id
      | none => d.reader.uncached id := by
  have read : d.reader.files.lookup h = .ok (some id) := found
  have opened : ¬ d.reader.isOpen = false := by simp [reader]
  cases shot : (d.reader.uncached id).snapshot? with
  | none => simp [Reader.uncachedHash, opened, read, shot]
  | some s => simp [Reader.uncachedHash, opened, read, shot]

private theorem uncachedHash_none (found : d.lookup h = .ok none) :
    d.reader.uncachedHash h = ⟨.notFound, .cleared, some ""⟩ := by
  have read : d.reader.files.lookup h = .ok none := found
  rw [Reader.uncachedHash, if_neg (by simp [reader]), read]

private theorem uncachedHash_error (failed : d.lookup h = .error text) :
    d.reader.uncachedHash h = ⟨.corrupt, .untouched, some text⟩ := by
  have read : d.reader.files.lookup h = .error text := failed
  rw [Reader.uncachedHash, if_neg (by simp [reader]), read]

end

section Hashes
variable (written : Written c d₀) (tip : c.committedTipHeight < 0 ∨ c.committedTipHeight < c.active.length)
include written

private theorem Written.uncached_beyond {id : Nat} (beyond : id = 0 ∨ c.records.length < id) :
    d₀.reader.uncached id = ⟨.notFound, .cleared, some ""⟩ := by
  rw [Reader.uncached, if_neg (by simp [reader]), if_pos (by rw [written.reader_manifest]; exact beyond)]

include tip

/-- A hash the index leads to a record of the contents: it is answered with that record if it is the
record's, and refused otherwise. -/
theorem Written.uncachedHash_record (alike : ReadsAlike d d₀) (found : c.records[i]? = some r)
    (leads : d.lookup h = .ok (some (i + 1))) : ∃ s, s.id = i + 1 ∧ d₀.reader.uncached (i + 1) = .found s ∧
      if r.hash = h then d.reader.uncachedHash h = .found s else (d.reader.uncachedHash h).status = .corrupt := by
  obtain ⟨s, served, id, rfl⟩ := written.uncached tip found
  refine ⟨s, id, served, ?_⟩
  have shown : (ReadReply.found s).snapshot? = some s := rfl
  rw [uncachedHash_some leads, alike.uncached, served, shown]
  dsimp only
  split
  · next same => rw [if_neg (by simpa using same)]
  · rfl

/-- A lookup by hash answers as in the writer's directory exactly when the index is intact there. -/
theorem Written.uncachedHash_iff (alike : ReadsAlike d d₀) (few : c.records.length < 2 ^ 64) (h : Hash) :
    d.reader.uncachedHash h = d₀.reader.uncachedHash h ↔
      match c.idOf h with
      | some id => d.lookup h = .ok (some id)
      | none => d.lookup h = .ok none ∨ ∃ id, d.lookup h = .ok (some id) ∧ c.records.length < id := by
  have built := written.lookup few h
  -- where the index of `d` leads: nowhere, beyond the records, or to one of them
  have leads : ∀ id, d.lookup h = .ok (some id) →
    (c.records.length < id ∧ d.reader.uncachedHash h = ⟨.notFound, .cleared, some ""⟩) ∨
      ∃ i r, id = i + 1 ∧ c.records[i]? = some r := by
    intro id found
    have positive : id ≠ 0 := fun zero => lookup_ne_zero (zero ▸ found)
    by_cases beyond : c.records.length < id
    · left
      have missing := written.uncached_beyond (.inr beyond)
      rw [uncachedHash_some found, alike.uncached, missing]
      exact ⟨beyond, rfl⟩
    · right
      obtain ⟨i, rfl⟩ : ∃ i, id = i + 1 := ⟨id - 1, by omega⟩
      exact ⟨i, _, rfl, List.getElem?_eq_getElem (by omega)⟩
  cases place : c.idOf h with
  | some id =>
    obtain ⟨i, index, rfl⟩ := Option.map_eq_some_iff.mp place
    obtain ⟨inside, named, -⟩ := List.findIdx?_eq_some_iff_getElem.mp index
    have found : c.records[i]? = some c.records[i] := List.getElem?_eq_getElem inside
    rw [place] at built
    obtain ⟨s, sid, served, reply⟩ := written.uncachedHash_record tip ⟨rfl, rfl, rfl, rfl⟩ found built
    rw [if_pos (by simpa using named)] at reply
    rw [reply]
    constructor
    · intro same
      cases looked : d.lookup h with
      | error text =>
        rw [uncachedHash_error looked] at same
        cases same
      | ok entry =>
        cases entry with
        | none =>
          rw [uncachedHash_none looked] at same
          cases same
        | some j =>
          rcases leads j looked with ⟨-, missing⟩ | ⟨k, r, rfl, found'⟩
          · rw [missing] at same
            cases same
          · obtain ⟨s', sid', -, reply'⟩ := written.uncachedHash_record tip alike found' looked
            split at reply'
            · rw [reply'] at same
              cases same
              rw [← sid', sid]
            · rw [same] at reply'
              cases reply'
    · intro looked
      obtain ⟨s', -, served', reply'⟩ := written.uncachedHash_record tip alike found looked
      rw [if_pos (by simpa using named)] at reply'
      rw [reply', ← served', served]
  | none =>
    rw [place] at built
    have absent := Option.map_eq_none_iff.mp place
    rw [uncachedHash_none built]
    constructor
    · intro same
      cases looked : d.lookup h with
      | error text =>
        rw [uncachedHash_error looked] at same
        cases same
      | ok entry =>
        cases entry with
        | none => exact .inl rfl
        | some j =>
          rcases leads j looked with ⟨beyond, -⟩ | ⟨k, r, rfl, found'⟩
          · exact .inr ⟨j, rfl, beyond⟩
          · obtain ⟨s', -, -, reply'⟩ := written.uncachedHash_record tip alike found' looked
            have other : r.hash ≠
              h := by simpa using List.findIdx?_eq_none_iff.mp absent r (List.mem_of_getElem? found')
            rw [if_neg other, same] at reply'
            cases reply'
    · rintro (looked | ⟨id, looked, beyond⟩)
      · exact uncachedHash_none looked
      · rcases leads id looked with ⟨-, missing⟩ | ⟨k, r, rfl, found'⟩
        · exact missing
        · have := (List.getElem?_eq_some_iff.mp found').1
          omega

end Hashes

/-! ## Validation and the hash index -/

/-- A generation whose files were altered, but not its manifest or its stored root, and which
validates: every lookup is answered from the contents its root was computed for exactly when its hash
index is intact. -/
theorem validated_answers_iff {path : String} (written : c.write = .ok d₀) (manifest : d.manifest = d₀.manifest)
    (stored : contentBinding (d.derived.getD []) = contentBinding (d₀.derived.getD []))
    (free : ∀ cov cov', d₀.readCovered c.generation c.records.length = .ok cov →
      d'.readCovered c.generation c.records.length = .ok cov' → NoCollision c.generation c.manifest cov cov')
    (valid : d.validateGeneration path c.generation = (.ok (), d')) :
    (∀ q, d'.answer q = d₀.answer q) ↔ c.IndexIntact d := by
  have built := write_ok written
  have validated := validateGeneration_ok valid (manifest.trans built.manifest) rfl
  obtain ⟨cov, read, file⟩ := built.root
  obtain ⟨cov', read', root⟩ := validated.root
  obtain ⟨leaves, rfl⟩ := validated.leaves
  have binding : contentBinding (d₀.derived.getD []) = Digest.sha256 (cov.rootInput c.generation c.manifest) := by
    rw [file]
    exact contentBinding_derivedFile _ _
  have same : SameEntries cov cov' := same_of_root (free cov cov' read read') (by rw [← binding, ← stored, root])
  have reads := readCovered_ok read
  have reads' := readCovered_ok read'
  obtain ⟨_, _, _, few⟩ := openDerived_ok validated.derived
  have few : 80 + c.records.length * 56 < 2 ^ 64 := few
  have alike : ReadsAlike { d with leaves } d₀ :=
    { manifest := manifest
      records := funext fun id =>
        (Reads.readRecord reads reads' same built.manifest (manifest.trans built.manifest) rfl id).symm
      active := funext fun height => (Reads.readEntry reads reads' same height).symm
      derived := funext fun id => (Reads.readDerived reads reads' same built.manifest (manifest.trans built.manifest)
        (built.openDerived few) validated.derived id).symm }
  have tip : c.committedTipHeight < 0 ∨ c.committedTipHeight < c.active.length := by
    obtain ⟨entries, opened, tip⟩ := validated.tip
    obtain ⟨entries', opened', region'⟩ := reads'.active
    obtain rfl : entries = entries' := Except.ok.inj (opened.symm.trans opened')
    obtain ⟨entries₀, opened₀, region₀⟩ := reads.active
    obtain rfl := built.active_entries opened₀
    obtain ⟨file', found', -⟩ := openActive_ok opened'
    obtain ⟨file₀, found₀, -⟩ := openActive_ok opened₀
    rw [found'] at region'
    rw [found₀] at region₀
    have one := entryRegion_length region'
    have two := entryRegion_length region₀
    rw [same.active] at two
    have level : entries = c.active.length := by omega
    rw [level] at tip
    exact tip
  rw [alike.answers_iff]
  exact forall_congr' fun h => built.uncachedHash_iff tip alike (by omega) h

end Generations

/-! ## One block -/

namespace OneBlock

def genesis : Record := { hash := ByteArr.filled 32 1, hashPrev := ByteArr.zero 32, height := 0 }

def contents : Contents where
  generation := 1
  records := [genesis]
  active := [1]
  derived := [{}]
  committedTipId := 1
  committedTipHeight := 0
  committedTipHash := genesis.hash
  generationInputDigest := ByteArr.zero 32
  complete := rfl
  generationSized := by decide
  sized := by
    intro r member
    obtain rfl := List.mem_singleton.mp member
    constructor <;> decide
  activeSized := by decide

/-- What the writer leaves. -/
def built : GenerationDir :=
  match @Contents.write sha256Digest contents with
  | .ok d => d
  | .error _ => {}

/-- The hash index has lost its last write, the only one after its metadata. -/
def lost : GenerationDir := { built with hashIndex := some (.ok fun key => .ok (newHashIndex 1 key)) }

private theorem written : @Contents.write sha256Digest contents = .ok built := by
  have ran : (@Contents.write sha256Digest contents).isOk = true := by decide +kernel
  unfold built
  cases made : @Contents.write sha256Digest contents with
  | ok d => rfl
  | error text =>
    rw [made] at ran
    cases ran

private theorem valid (index : Option LevelDb)
    (sound : (({ built with hashIndex := index } : GenerationDir).validateStructure "gen-000001" 1).isOk = true) :
    @validateGeneration sha256Digest { built with hashIndex := index } "gen-000001" 1 =
      (.ok (), { built with hashIndex := index }) := by
  let := sha256Digest
  have made := write_ok written
  obtain ⟨m, sound⟩ : ∃ m, ({ built with hashIndex := index } : GenerationDir).validateStructure
    "gen-000001" 1 = .ok m := by
    cases ran : ({ built with hashIndex := index } : GenerationDir).validateStructure "gen-000001" 1 with
    | ok m => exact ⟨m, rfl⟩
    | error text =>
      rw [ran] at sound
      cases sound
  obtain rfl : m = contents.manifest := Option.some.inj ((validateStructure_ok sound).1.symm.trans made.manifest)
  rw [validateGeneration, sound]
  exact made.validateRoot (by decide) (by decide +kernel) (by decide +kernel) index

end OneBlock

/-- A generation that has lost the hash index entry of its block validates, and does not find it. -/
theorem lost_entry_validates : @Contents.write sha256Digest OneBlock.contents = .ok OneBlock.built ∧
    OneBlock.lost = { OneBlock.built with hashIndex := OneBlock.lost.hashIndex } ∧
    @validateGeneration sha256Digest OneBlock.lost "gen-000001" 1 = (.ok (), OneBlock.lost) ∧
    OneBlock.lost.answer (.hash OneBlock.genesis.hash) = .block ⟨.notFound, .cleared, some ""⟩ ∧
    OneBlock.built.answer (.hash OneBlock.genesis.hash) ≠ .block ⟨.notFound, .cleared, some ""⟩ := by
  exact ⟨OneBlock.written, rfl, OneBlock.valid _ (by decide +kernel), by decide +kernel, by decide +kernel⟩

namespace OneBlock

/-- The hash index leads every other hash behind the last record. -/
def strayed : GenerationDir :=
  { built with hashIndex := some (.ok fun key => .ok
      (if key.length ≠ 33 then newHashIndex 1 key else if key = hashKey genesis.hash then
        some (Bytes.le 8 1) else some (Bytes.le 8 2))) }

private theorem strayed_intact : contents.IndexIntact strayed := by
  intro h
  by_cases same : h = genesis.hash
  · subst same
    exact show strayed.lookup genesis.hash = .ok (some 1) by decide +kernel
  · have unknown : contents.idOf h = none := by simp [Contents.idOf, contents, Ne.symm same]
    have other : hashKey h ≠ hashKey genesis.hash := mt hashKey_inj same
    have behind : strayed.lookup h = .ok (some 2) := by
      show lookupIn _ h = _
      rw [lookupIn, dbGet, if_neg (not_not.mpr (hashKey_length h)), if_neg other]
      rfl
    rw [unknown]
    exact .inr ⟨2, behind, by decide⟩

end OneBlock

/-- An altered generation whose index is intact is answered as the written one. -/
theorem validated_answers_strayed : @validateGeneration sha256Digest OneBlock.strayed "gen-000001" 1 =
    (.ok (), OneBlock.strayed) ∧
    ∀ q, OneBlock.strayed.answer q = OneBlock.built.answer q := by
  let := sha256Digest
  have passed : OneBlock.strayed.validateGeneration "gen-000001" 1 = (.ok (), OneBlock.strayed) :=
    OneBlock.valid OneBlock.strayed.hashIndex (by decide +kernel)
  refine ⟨passed, (validated_answers_iff (d := OneBlock.strayed) OneBlock.written rfl rfl ?_ passed).mpr
    OneBlock.strayed_intact⟩
  intro cov cov' read read'
  obtain rfl : cov = cov' := Except.ok.inj (read.symm.trans read')
  exact ⟨fun _ => rfl, fun _ => rfl, fun _ => rfl, fun _ => rfl⟩

end Innova.BlockIndex
