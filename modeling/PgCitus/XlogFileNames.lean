import PgCitus.XlogInternal

/-!
# Telling WAL files by their names

In the directory of the write-ahead log there are files of four kinds: segments, segments
that are not complete, histories of timelines, and histories of backups. What a file is, is
told by its name alone: by its length, by how many hexadecimal digits it begins with, and by
what it ends in. The names of the first three kinds have different lengths; the name of a
backup history may have any length, but what it ends in is not what a partial segment ends in
(`recognise_atMostOne`).

The end of a name is found by counting back from its terminator. A string that is shorter
would be read before its start; the length is tested first, so that this does not happen
(`isSome_recognise`).
-/

namespace XlogInternal

/-! ## The recognisers -/

/-- `strspn` of the digits. -/
def strspnHex (s : List Char) : ℕ := (s.takeWhile fun c => hexDigits.contains c).length

/-- The string at `fname + offset`: there is none before the start, or after the end. -/
def stringAt (fname : List Char) (offset : ℤ) : Option (List Char) :=
  if 0 ≤ offset ∧ offset ≤ fname.length then some (fname.drop offset.toNat) else none

/-- `a && strcmp(fname + offset, suffix) == 0`, which reads nothing unless `a`. -/
def andEndsAt (a : Bool) (fname : List Char) (offset : ℤ) (suffix : String) : Option Bool :=
  if a then (stringAt fname offset).map fun s => strcmp s suffix.toList = .eq else some false

/-- `IsPartialXLogFileName`. -/
def isPartialXLogFileName (fname : List Char) : Option Bool :=
  andEndsAt (fname.length = xlogFnameLen + ".partial".length ∧ strspnHex fname = xlogFnameLen)
    fname xlogFnameLen ".partial"

/-- `IsTLHistoryFileName`. -/
def isTLHistoryFileName (fname : List Char) : Option Bool :=
  andEndsAt (fname.length = 8 + ".history".length ∧ strspnHex fname = 8) fname 8 ".history"

/-- `IsBackupHistoryFileName`. -/
def isBackupHistoryFileName (fname : List Char) : Option Bool :=
  andEndsAt (fname.length > xlogFnameLen ∧ strspnHex fname = xlogFnameLen)
    fname ((fname.length : ℤ) - ".backup".length) ".backup"

/-- **What a name is taken for**: a segment, a partial segment, the history of a timeline,
the history of a backup. Where nothing is returned, a string was read out of its bounds. -/
def recognise (fname : List Char) : List (Option Bool) :=
  [some (isXLogFileName fname), isPartialXLogFileName fname, isTLHistoryFileName fname,
    isBackupHistoryFileName fname]

/-! ## The generators -/

/-- `MAXFNAMELEN`, with the terminator. -/
def maxfnamelen : ℕ := 64

/-- The name of a segment, followed by `.partial`. -/
def partialXLogFileName (tli : BitVec 32) (logSegNo : BitVec 64) (walSegszBytes : BitVec 32) :
    List Char :=
  xlogFileName tli logSegNo walSegszBytes ++ ".partial".toList

/-- `TLHistoryFileName`. -/
def tlHistoryFileName (tli : BitVec 32) : List Char := format08X tli ++ ".history".toList

/-- `BackupHistoryFileName`. -/
def backupHistoryFileName (tli : BitVec 32) (logSegNo startpoint : BitVec 64)
    (walSegszBytes : BitVec 32) : List Char :=
  format08X tli
    ++ format08X ((logSegNo / xlogSegmentsPerXLogId walSegszBytes).setWidth 32)
    ++ format08X ((logSegNo % xlogSegmentsPerXLogId walSegszBytes).setWidth 32)
    ++ ['.'] ++ format08X ((xlogSegmentOffset startpoint walSegszBytes).setWidth 32)
    ++ ".backup".toList

/-! ## What the recognisers recognise -/

theorem strcmp_eq_iff {a b : List Char} : strcmp a b = .eq ↔ a = b :=
  Numeral.lexCompare_eq_iff fun _ _ h => Char.toNat_inj.mp h

/-- **A comparison with the end of a string**, where it has one there. -/
theorem andEndsAt_eq {a : Bool} {fname : List Char} {n : ℕ} {suffix : String}
    (h : a = true → n ≤ fname.length) :
    andEndsAt a fname n suffix = some (decide (a = true ∧ fname.drop n = suffix.toList)) := by
  unfold andEndsAt stringAt
  cases a with
  | false => rfl
  | true =>
    have hle := h rfl
    rw [if_pos rfl, if_pos ⟨Int.natCast_nonneg n, Int.ofNat_le.mpr hle⟩, Int.toNat_natCast]
    refine congrArg some (decide_eq_decide.mpr ?_)
    rw [strcmp_eq_iff]
    exact (and_iff_right rfl).symm

theorem isPartialXLogFileName_eq (fname : List Char) : isPartialXLogFileName fname =
    some (decide ((fname.length = 32 ∧ strspnHex fname = 24) ∧
      fname.drop 24 = ".partial".toList)) := by
  unfold isPartialXLogFileName xlogFnameLen
  rw [show ".partial".length = 8 from rfl]
  refine (andEndsAt_eq (n := 24) fun h => ?_).trans ?_
  · have hlen := (of_decide_eq_true h).1
    omega
  · simp only [decide_eq_true_eq]

theorem isTLHistoryFileName_eq (fname : List Char) : isTLHistoryFileName fname =
    some (decide ((fname.length = 16 ∧ strspnHex fname = 8) ∧
      fname.drop 8 = ".history".toList)) := by
  unfold isTLHistoryFileName
  rw [show ".history".length = 8 from rfl]
  refine (andEndsAt_eq (n := 8) fun h => ?_).trans ?_
  · have hlen := (of_decide_eq_true h).1
    omega
  · simp only [decide_eq_true_eq]

/-- The length is what keeps the recogniser from counting back too far. -/
theorem isBackupHistoryFileName_eq (fname : List Char) : isBackupHistoryFileName fname =
    some (decide ((fname.length > 24 ∧ strspnHex fname = 24) ∧
      fname.drop (fname.length - 7) = ".backup".toList)) := by
  unfold isBackupHistoryFileName xlogFnameLen
  rw [show ".backup".length = 7 from rfl]
  by_cases hlen : fname.length > 24
  · have hoffset : (fname.length : ℤ) - (7 : ℕ) = ((fname.length - 7 : ℕ) : ℤ) :=
      (Int.ofNat_sub (by omega)).symm
    rw [hoffset]
    refine (andEndsAt_eq fun _ => Nat.sub_le _ _).trans ?_
    simp only [decide_eq_true_eq]
  · have hfalse : decide (fname.length > 24 ∧ strspnHex fname = 24) = false :=
      decide_eq_false fun h => hlen h.1
    rw [hfalse, decide_eq_false fun h => hlen h.1.1]
    rfl

/-- **No recogniser reads out of bounds**, whatever the length of the string. -/
theorem isSome_recognise (fname : List Char) : ∀ r ∈ recognise fname, r.isSome = true := by
  unfold recognise
  rw [isPartialXLogFileName_eq, isTLHistoryFileName_eq, isBackupHistoryFileName_eq]
  intro r hr
  simp only [List.mem_cons, List.not_mem_nil, or_false] at hr
  rcases hr with rfl | rfl | rfl | rfl <;> rfl

/-! ## Four kinds of names -/

/-- What four recognisers say, no two of which agree. -/
theorem length_filter_le_one : ∀ x p t b : Bool, (x && p) = false → (x && t) = false →
    (x && b) = false → (p && t) = false → (p && b) = false → (t && b) = false →
    (([some x, some p, some t, some b]).filter fun r => r = some true).length ≤ 1 := by
  decide

theorem and_decide_eq_false {a : Bool} {P : Prop} [Decidable P] (h : a = true → ¬ P) :
    (a && decide P) = false := by
  cases a with
  | false => rfl
  | true => exact decide_eq_false (h rfl)

/-- What ends in `.partial` does not end in `.backup`. -/
theorem partial_ne_backup {fname : List Char} (h : fname.drop 24 = ".partial".toList)
    (hlen : fname.length = 32) : fname.drop (fname.length - 7) ≠ ".backup".toList := by
  have hdrop : fname.drop (fname.length - 7) = (fname.drop 24).drop 1 := by
    rw [List.drop_drop, hlen]
  rw [hdrop, h]
  decide

/-- **A name is taken for one thing at most.** The first three kinds have lengths of their
own; a backup history is longer than a segment, and does not end like a partial one. -/
theorem recognise_atMostOne (fname : List Char) :
    ((recognise fname).filter fun r => r = some true).length ≤ 1 := by
  have hx : isXLogFileName fname = true → fname.length = 24 := fun h => (of_decide_eq_true h).1
  unfold recognise
  rw [isPartialXLogFileName_eq, isTLHistoryFileName_eq, isBackupHistoryFileName_eq]
  apply length_filter_le_one
  · exact and_decide_eq_false fun h hp => by have := hx h; omega
  · exact and_decide_eq_false fun h ht => by have := hx h; omega
  · exact and_decide_eq_false fun h hb => by have := hx h; omega
  · exact and_decide_eq_false fun h ht => by have := of_decide_eq_true h; omega
  · refine and_decide_eq_false fun h hb => ?_
    obtain ⟨⟨hlen, -⟩, hend⟩ := of_decide_eq_true h
    exact partial_ne_backup hend hlen hb.2
  · exact and_decide_eq_false fun h hb => by have := of_decide_eq_true h; omega

/-! ## The names that are generated -/

theorem hex_format08X {n : BitVec 32} : ∀ c ∈ format08X n, hexDigits.contains c = true := by
  intro c hc
  obtain ⟨d, hd, rfl⟩ := format08X_mem hc
  exact (hexDigit_facts d hd).2.1

/-- Digits, and what comes after them. -/
theorem strspnHex_append {s : List Char} (t : List Char)
    (hs : ∀ c ∈ s, hexDigits.contains c = true) :
    strspnHex (s ++ t) = s.length + strspnHex t := by
  unfold strspnHex
  rw [List.takeWhile_append_of_pos hs, List.length_append]

theorem isXLogFileName_eq (fname : List Char) : isXLogFileName fname =
    decide (fname.length = 24 ∧ strspnHex fname = 24) := rfl

variable {s : List Char}

/-- A segment: 24 digits. -/
theorem recognise_segment (hs : ∀ c ∈ s, hexDigits.contains c = true) (hlen : s.length = 24) :
    recognise s = [some true, some false, some false, some false] := by
  have hspan : strspnHex s = 24 := by
    have happend := strspnHex_append [] hs
    rwa [List.append_nil, hlen] at happend
  unfold recognise
  rw [isXLogFileName_eq, isPartialXLogFileName_eq, isTLHistoryFileName_eq,
    isBackupHistoryFileName_eq, decide_eq_true ⟨hlen, hspan⟩, decide_eq_false (by omega),
    decide_eq_false (by omega), decide_eq_false (by omega)]

/-- A partial segment: 24 digits and `.partial`. -/
theorem recognise_partial (hs : ∀ c ∈ s, hexDigits.contains c = true) (hlen : s.length = 24) :
    recognise (s ++ ".partial".toList) = [some false, some true, some false, some false] := by
  have hlen' : (s ++ ".partial".toList).length = 32 := by
    rw [List.length_append, hlen]
    rfl
  have hspan : strspnHex (s ++ ".partial".toList) = 24 := by
    rw [strspnHex_append _ hs, hlen]
    rfl
  have hend : (s ++ ".partial".toList).drop 24 = ".partial".toList := List.drop_left' hlen
  unfold recognise
  rw [isXLogFileName_eq, isPartialXLogFileName_eq, isTLHistoryFileName_eq,
    isBackupHistoryFileName_eq, decide_eq_false (by omega),
    decide_eq_true ⟨⟨hlen', hspan⟩, hend⟩, decide_eq_false (by omega),
    decide_eq_false fun h => partial_ne_backup hend hlen' h.2]

/-- The history of a timeline: eight digits and `.history`. -/
theorem recognise_tlHistory (hs : ∀ c ∈ s, hexDigits.contains c = true) (hlen : s.length = 8) :
    recognise (s ++ ".history".toList) = [some false, some false, some true, some false] := by
  have hlen' : (s ++ ".history".toList).length = 16 := by
    rw [List.length_append, hlen]
    rfl
  have hspan : strspnHex (s ++ ".history".toList) = 8 := by
    rw [strspnHex_append _ hs, hlen]
    rfl
  have hend : (s ++ ".history".toList).drop 8 = ".history".toList := List.drop_left' hlen
  unfold recognise
  rw [isXLogFileName_eq, isPartialXLogFileName_eq, isTLHistoryFileName_eq,
    isBackupHistoryFileName_eq, decide_eq_false (by omega), decide_eq_false (by omega),
    decide_eq_true ⟨⟨hlen', hspan⟩, hend⟩, decide_eq_false (by omega)]

/-- The history of a backup: 24 digits, a dot, anything, and `.backup`. -/
theorem recognise_backup (hs : ∀ c ∈ s, hexDigits.contains c = true) (hlen : s.length = 24)
    (t : List Char) :
    recognise (s ++ '.' :: t ++ ".backup".toList) =
      [some false, some false, some false, some true] := by
  have hlen' : (s ++ '.' :: t ++ ".backup".toList).length = 32 + t.length := by
    rw [List.length_append, List.length_append, List.length_cons, hlen,
      show ".backup".toList.length = 7 from rfl]
    omega
  have hspan : strspnHex (s ++ '.' :: t ++ ".backup".toList) = 24 := by
    rw [List.append_assoc, strspnHex_append _ hs, hlen]
    rfl
  have hend : (s ++ '.' :: t ++ ".backup".toList).drop
      ((s ++ '.' :: t ++ ".backup".toList).length - 7) = ".backup".toList := by
    refine List.drop_left' ?_
    rw [hlen', List.length_append, List.length_cons, hlen]
    omega
  unfold recognise
  rw [isXLogFileName_eq, isPartialXLogFileName_eq, isTLHistoryFileName_eq,
    isBackupHistoryFileName_eq, decide_eq_false (by omega),
    decide_eq_false fun h => partial_ne_backup h.2 h.1.1 hend, decide_eq_false (by omega),
    decide_eq_true ⟨⟨by omega, hspan⟩, hend⟩]

/-- Three fields are 24 digits. -/
theorem hex_xlogFileNameById (tli log seg : BitVec 32) :
    (∀ c ∈ xlogFileNameById tli log seg, hexDigits.contains c = true) ∧
      (xlogFileNameById tli log seg).length = 24 := by
  unfold xlogFileNameById
  refine ⟨fun c hc => ?_, ?_⟩
  · rw [List.mem_append, List.mem_append] at hc
    rcases hc with (hc | hc) | hc <;> exact hex_format08X c hc
  · rw [List.length_append, List.length_append, length_format08X, length_format08X,
      length_format08X]

/-- The name of the history of a backup begins with that of a segment. -/
theorem backupHistoryFileName_eq (tli : BitVec 32) (segno startpoint : BitVec 64)
    (walSegszBytes : BitVec 32) :
    backupHistoryFileName tli segno startpoint walSegszBytes =
      xlogFileName tli segno walSegszBytes ++
        '.' :: format08X ((xlogSegmentOffset startpoint walSegszBytes).setWidth 32) ++
          ".backup".toList := by
  unfold backupHistoryFileName xlogFileName
  rw [List.append_assoc _ ['.']]
  rfl

/-- **What is taken for the history of a timeline** is named after one. -/
theorem exists_tlHistoryFileName {fname : List Char}
    (h : isTLHistoryFileName fname = some true) : ∃ tli, fname = tlHistoryFileName tli := by
  rw [isTLHistoryFileName_eq, Option.some.injEq, decide_eq_true_iff] at h
  obtain ⟨⟨hlen, hspan⟩, hend⟩ := h
  have htake : fname.take 8 = fname.takeWhile fun c => hexDigits.contains c := by
    have hspanned := List.prefix_iff_eq_take.mp
      (List.takeWhile_prefix (l := fname) fun c => hexDigits.contains c)
    rw [hspanned, show (fname.takeWhile fun c => hexDigits.contains c).length = 8 from hspan]
  obtain ⟨tli, htli⟩ : ∃ tli, fname.take 8 = format08X tli := by
    refine exists_format08X (by rw [List.length_take, hlen]; rfl) fun c hc => ?_
    rw [htake] at hc
    exact List.mem_takeWhile_imp hc
  refine ⟨tli, ?_⟩
  unfold tlHistoryFileName
  rw [← htli, ← hend, List.take_append_drop]

/-- **Names of WAL files.** No string is taken for two kinds of files, or read out of its
bounds; every name that is generated is taken for what it is and nothing else, and fits; and
segments and histories of timelines are told by nothing but names that can be generated. -/
theorem walFileNames :
    (∀ fname, (∀ r ∈ recognise fname, r.isSome = true) ∧
      ((recognise fname).filter fun r => r = some true).length ≤ 1) ∧
    (∀ tli segno startpoint walSegszBytes,
      recognise (xlogFileName tli segno walSegszBytes) =
        [some true, some false, some false, some false] ∧
      (xlogFileName tli segno walSegszBytes).length < maxfnamelen ∧
      recognise (partialXLogFileName tli segno walSegszBytes) =
        [some false, some true, some false, some false] ∧
      (partialXLogFileName tli segno walSegszBytes).length < maxfnamelen ∧
      recognise (tlHistoryFileName tli) = [some false, some false, some true, some false] ∧
      (tlHistoryFileName tli).length < maxfnamelen ∧
      recognise (backupHistoryFileName tli segno startpoint walSegszBytes) =
        [some false, some false, some false, some true] ∧
      (backupHistoryFileName tli segno startpoint walSegszBytes).length < maxfnamelen) ∧
    (∀ fname, isXLogFileName fname = true ↔
      ∃ tli log seg, fname = xlogFileNameById tli log seg) ∧
    (∀ fname, isTLHistoryFileName fname = some true ↔
      ∃ tli, fname = tlHistoryFileName tli) := by
  refine ⟨fun fname => ⟨isSome_recognise fname, recognise_atMostOne fname⟩,
    fun tli segno startpoint walSegszBytes => ?_, fun fname => ?_, fun fname => ?_⟩
  · obtain ⟨hhex, hlen⟩ := hex_xlogFileNameById tli
      ((segno / xlogSegmentsPerXLogId walSegszBytes).setWidth 32)
      ((segno % xlogSegmentsPerXLogId walSegszBytes).setWidth 32)
    have hlen' : (xlogFileName tli segno walSegszBytes).length = 24 := hlen
    rw [backupHistoryFileName_eq]
    refine ⟨recognise_segment hhex hlen, ?_, recognise_partial hhex hlen, ?_,
      recognise_tlHistory hex_format08X (length_format08X tli), ?_,
      recognise_backup hhex hlen _, ?_⟩
    · rw [hlen']
      decide
    · unfold partialXLogFileName
      rw [List.length_append, hlen']
      decide
    · unfold tlHistoryFileName
      rw [List.length_append, length_format08X]
      decide
    · rw [List.length_append, List.length_append, List.length_cons, hlen', length_format08X]
      decide
  · refine ⟨exists_xlogFileNameById, ?_⟩
    rintro ⟨tli, log, seg, rfl⟩
    obtain ⟨hhex, hlen⟩ := hex_xlogFileNameById tli log seg
    exact Option.some.inj (List.cons.inj (recognise_segment hhex hlen)).1
  · refine ⟨exists_tlHistoryFileName, ?_⟩
    rintro ⟨tli, rfl⟩
    have hrec := recognise_tlHistory hex_format08X (length_format08X tli)
    exact (List.cons.inj (List.cons.inj (List.cons.inj hrec).2).2).1

end XlogInternal
