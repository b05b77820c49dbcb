import PgCitus.ArrayAccess
import PgCitus.Library.BitField
import PgCitus.Library.Pack

/-!
# The format of a tsvector

What the comment at the head of `tsearch/ts_type.h` says a tsvector is, and the macros that read
one. A header and the number of lexemes are followed by an entry for each lexeme, a word of three
bit fields, and then by the data of each lexeme: its text, which is not terminated, and if it has
positions, these and before them their number, aligned for a `uint16`.

A tsvector is `Stored` with the offset of each lexeme in the field `pos` of its entry. Then from
the entry of a lexeme the macros come to its text and its positions (`tsvector_reads`), for as
many lexemes, of whatever lengths, as the widths of the fields leave room for.
-/

namespace TsVector

open Tupmacs PgArray BitField

/-! ## Positions -/

/-- `WordEntryPos`. -/
abbrev WordEntryPos := BitVec 16

/-- `WEP_GETWEIGHT`. -/
def wepGetweight (x : WordEntryPos) : BitVec 16 := x >>> 14
/-- `WEP_GETPOS`. -/
def wepGetpos (x : WordEntryPos) : BitVec 16 := x &&& 0x3fff
/-- `WEP_SETWEIGHT`. -/
def wepSetweight (x : WordEntryPos) (v : BitVec 16) : WordEntryPos := v <<< 14 ||| x &&& 0x3fff
/-- `WEP_SETPOS`. -/
def wepSetpos (x : WordEntryPos) (v : BitVec 16) : WordEntryPos := x &&& 0xc000 ||| v &&& 0x3fff

/-- `MAXENTRYPOS`. -/
def maxentrypos : ℕ := 2 ^ 14
/-- `LIMITPOS`. -/
def limitpos (x : ℕ) : ℕ := if x ≥ maxentrypos then maxentrypos - 1 else x

/-! ## Entries -/

/-- `WordEntry`: three bit fields, from the lowest bit on. -/
abbrev WordEntry := BitVec 32

/-- The field `haspos`. -/
def WordEntry.haspos (e : WordEntry) : BitVec 1 := e.extractLsb' 0 1
/-- The field `len`. -/
def WordEntry.len (e : WordEntry) : BitVec 11 := e.extractLsb' 1 11
/-- The field `pos`. -/
def WordEntry.pos (e : WordEntry) : BitVec 20 := e.extractLsb' 12 20

/-- The entry with these fields. -/
def WordEntry.of (haspos : Bool) (len : BitVec 11) (pos : BitVec 20) : WordEntry :=
  pos ++ len ++ BitVec.ofBool haspos

/-- `MAXSTRLEN`. -/
def maxstrlen : ℕ := 2 ^ 11 - 1
/-- `MAXSTRPOS`. -/
def maxstrpos : ℕ := 2 ^ 20 - 1

/-! ## The macros -/

/-- `SHORTALIGN`. -/
def shortalign (len : ℕ) : ℕ := typealign 2 len

/-- `DATAHDRSIZE`. -/
def datahdrsize : ℕ := 8

/-- `CALCDATASIZE`. -/
def calcdatasize (nentries lenstr : ℕ) : ℕ := datahdrsize + nentries * 4 + lenstr

/-- The field `size`. -/
def size (x : CharPtr) : Option (BitVec 32) := readWord 4 (x.add 4).mem

/-- `ARRPTR`. -/
def arrptr (x : CharPtr) : CharPtr := x.add datahdrsize

/-- `ARRPTR(x)[i]`. -/
def entry (x : CharPtr) (i : ℕ) : Option WordEntry := readWord 4 ((arrptr x).add (4 * i)).mem

/-- `STRPTR`. -/
def strptr (x : CharPtr) : Option CharPtr :=
  (size x).map fun size => (arrptr x).add (4 * size.toNat)

/-- `_POSVECPTR`. -/
def posvecptr (x : CharPtr) (e : WordEntry) : Option CharPtr :=
  (strptr x).map fun p => p.add (shortalign (e.pos.toNat + e.len.toNat))

/-- `POSDATALEN`. -/
def posdatalen (x : CharPtr) (e : WordEntry) : Option (BitVec 16) :=
  if e.haspos ≠ 0 then (posvecptr x e).bind fun p => readWord 2 p.mem else some 0

/-- `POSDATAPTR`. -/
def posdataptr (x : CharPtr) (e : WordEntry) : Option CharPtr := (posvecptr x e).map (·.add 2)

/-! ## What is stored -/

/-- A lexeme, with positions or without; `pad` is what is in the padding, if there is any. -/
structure Lexeme where
  text : Ptr
  positions : Option (List WordEntryPos)
  pad : BitVec 8

/-- The data of a lexeme, at an offset from the end of the entries. -/
def Lexeme.data (off : ℕ) (lex : Lexeme) : Ptr :=
  lex.text ++
    match lex.positions with
    | none => []
    | some ps =>
      List.replicate (shortalign (off + lex.text.length) - (off + lex.text.length)) lex.pad ++
        (wordBytes 2 (BitVec.ofNat 16 ps.length) ++ ps.flatMap (wordBytes 2))

/-- Where the data of a lexeme starts. -/
def startOf (lexemes : List Lexeme) (i : ℕ) : ℕ := Pack.start Lexeme.data 0 lexemes i

/-- The entry of a lexeme with its data at an offset. -/
def Lexeme.entry (off : ℕ) (lex : Lexeme) : WordEntry :=
  .of lex.positions.isSome (BitVec.ofNat 11 lex.text.length) (BitVec.ofNat 20 off)

/-- **A tsvector as it is stored.** -/
structure Stored where
  lexemes : List Lexeme
  text_le : ∀ lex ∈ lexemes, lex.text.length ≤ maxstrlen
  start_le : ∀ i < lexemes.length, startOf lexemes i ≤ maxstrpos
  npos_lt : ∀ lex ∈ lexemes, ∀ ps, lex.positions = some ps → ps.length < 2 ^ 16
  /-- The length fits the header. -/
  size_lt : calcdatasize lexemes.length (Pack.pack Lexeme.data 0 lexemes).length < 2 ^ 30

/-- The data of all lexemes. -/
def Stored.strings (V : Stored) : Ptr := Pack.pack Lexeme.data 0 V.lexemes

/-- The entries. -/
def Stored.entries (V : Stored) : List WordEntry :=
  V.lexemes.mapIdx fun i lex => lex.entry (startOf V.lexemes i)

/-- The bytes of a tsvector. -/
def Stored.bytes (V : Stored) : Ptr :=
  wordBytes 4 (setVarsize4b (calcdatasize V.lexemes.length V.strings.length)) ++
  (wordBytes 4 (BitVec.ofNat 32 V.lexemes.length) ++
  (V.entries.flatMap (wordBytes 4) ++ V.strings))

/-! ## The fields -/

@[simp] theorem haspos_of (haspos : Bool) (len : BitVec 11) (pos : BitVec 20) :
    (WordEntry.of haspos len pos).haspos = BitVec.ofBool haspos := by
  ext j hj
  rw [WordEntry.haspos, WordEntry.of, BitVec.getElem_extractLsb', BitVec.getLsbD_append,
    Nat.zero_add, if_pos hj, BitVec.getLsbD_eq_getElem hj]

@[simp] theorem len_of (haspos : Bool) (len : BitVec 11) (pos : BitVec 20) :
    (WordEntry.of haspos len pos).len = len := by
  ext j hj
  rw [WordEntry.len, WordEntry.of, BitVec.getElem_extractLsb', BitVec.getLsbD_append,
    if_neg (by omega), Nat.add_sub_cancel_left, BitVec.getLsbD_append, if_pos hj,
    BitVec.getLsbD_eq_getElem hj]

@[simp] theorem pos_of (haspos : Bool) (len : BitVec 11) (pos : BitVec 20) :
    (WordEntry.of haspos len pos).pos = pos := by
  ext j hj
  rw [WordEntry.pos, WordEntry.of, BitVec.getElem_extractLsb', BitVec.getLsbD_append,
    if_neg (by omega), BitVec.getLsbD_append, if_neg (by omega),
    show 12 + j - 1 - 11 = j by omega, BitVec.getLsbD_eq_getElem hj]

/-! ## Positions, field by field -/

/-- The bits of a position. -/
theorem getLsbD_posMask {i : ℕ} (hi : i < 16) :
    (0x3fff : BitVec 16).getLsbD i = decide (i < 14) := by
  have hall : ∀ i : Fin 16, (0x3fff : BitVec 16).getLsbD i = decide (i.val < 14) := by decide
  exact hall ⟨i, hi⟩

/-- The bits of a weight. -/
theorem getLsbD_weightMask {i : ℕ} (hi : i < 16) :
    (0xc000 : BitVec 16).getLsbD i = !decide (i < 14) := by
  have hall : ∀ i : Fin 16, (0xc000 : BitVec 16).getLsbD i = !decide (i.val < 14) := by decide
  exact hall ⟨i, hi⟩

variable (x v : BitVec 16)

/-- **The position is set**, as far as it has room. -/
theorem wepGetpos_setpos : wepGetpos (wepSetpos x v) = v &&& 0x3fff := by
  refine BitVec.eq_of_getLsbD_eq fun i hi => ?_
  unfold wepGetpos wepSetpos
  simp only [BitVec.getLsbD_and, BitVec.getLsbD_or]
  rw [getLsbD_posMask hi, getLsbD_weightMask hi]
  cases decide (i < 14) <;> simp

/-- It does not show in the weight. -/
theorem wepGetweight_setpos : wepGetweight (wepSetpos x v) = wepGetweight x := by
  refine BitVec.eq_of_getLsbD_eq fun i hi => ?_
  unfold wepGetweight wepSetpos
  simp only [BitVec.getLsbD_ushiftRight, BitVec.getLsbD_and, BitVec.getLsbD_or]
  by_cases h : 14 + i < 16
  · rw [getLsbD_posMask h, getLsbD_weightMask h]
    simp
  · rw [BitVec.getLsbD_of_ge x _ (Nat.le_of_not_lt h),
      BitVec.getLsbD_of_ge v _ (Nat.le_of_not_lt h)]
    rfl

/-- **The weight is set**, as far as it has room. -/
theorem wepGetweight_setweight : wepGetweight (wepSetweight x v) = v &&& 3 := by
  refine BitVec.eq_of_getLsbD_eq fun i hi => ?_
  have hthree : ∀ i : Fin 16, (3 : BitVec 16).getLsbD i = decide (i.val < 2) := by decide
  unfold wepGetweight wepSetweight
  simp only [BitVec.getLsbD_ushiftRight, BitVec.getLsbD_and, BitVec.getLsbD_or,
    BitVec.getLsbD_shiftLeft]
  rw [show (3 : BitVec 16).getLsbD i = decide (i < 2) from hthree ⟨i, hi⟩]
  by_cases h : 14 + i < 16
  · rw [getLsbD_posMask h]
    simp [h, show i < 2 by omega]
  · rw [BitVec.getLsbD_of_ge x _ (Nat.le_of_not_lt h)]
    simp [h, show ¬ i < 2 by omega]

/-- It does not show in the position. -/
theorem wepGetpos_setweight : wepGetpos (wepSetweight x v) = wepGetpos x := by
  refine BitVec.eq_of_getLsbD_eq fun i hi => ?_
  unfold wepGetpos wepSetweight
  simp only [BitVec.getLsbD_and, BitVec.getLsbD_or, BitVec.getLsbD_shiftLeft]
  rw [getLsbD_posMask hi]
  by_cases h : i < 14 <;> simp [h]

/-- **A position that is limited** has room. -/
theorem wepGetpos_limitpos (n : ℕ) :
    (wepGetpos (wepSetpos x (BitVec.ofNat 16 (limitpos n)))).toNat = limitpos n := by
  have hlt : limitpos n < 2 ^ 14 := by
    unfold limitpos maxentrypos
    split_ifs with h
    · decide
    · exact Nat.lt_of_not_le h
  rw [wepGetpos_setpos, BitVec.toNat_and, BitVec.toNat_ofNat,
    Nat.mod_eq_of_lt (hlt.trans (by decide))]
  show limitpos n &&& (2 ^ 14 - 1) = _
  rw [Nat.and_two_pow_sub_one_eq_mod, Nat.mod_eq_of_lt hlt]

/-- A use of a macro that sets a field of a position. -/
inductive WepSetter where
  | weight (v : BitVec 16)
  | pos (v : BitVec 16)

/-- The use of it. -/
def WepSetter.apply (x : WordEntryPos) : WepSetter → WordEntryPos
  | weight v => wepSetweight x v
  | pos v => wepSetpos x v

/-- The weight that is set. -/
def WepSetter.weight? : WepSetter → Option (BitVec 16)
  | weight v => some (v &&& 3)
  | pos _ => none

/-- The position that is set. -/
def WepSetter.pos? : WepSetter → Option (BitVec 16)
  | weight _ => none
  | pos v => some (v &&& 0x3fff)

/-- **The two fields of a position** are written to as if each were alone, whatever was there
before and in whatever order. -/
theorem wep_run (ss : List WepSetter) :
    wepGetweight (ss.foldl WepSetter.apply x) =
        (ss.filterMap WepSetter.weight?).getLast?.getD (wepGetweight x) ∧
      wepGetpos (ss.foldl WepSetter.apply x) =
        (ss.filterMap WepSetter.pos?).getLast?.getD (wepGetpos x) := by
  induction ss using List.reverseRecOn with
  | nil => exact ⟨rfl, rfl⟩
  | append_singleton ss s ih =>
    rw [List.foldl_append, List.foldl_cons, List.foldl_nil, List.filterMap_append,
      List.filterMap_append]
    cases s with
    | weight v =>
      refine ⟨(wepGetweight_setweight _ v).trans ?_, (wepGetpos_setweight _ v).trans ?_⟩
      · simp [WepSetter.weight?]
      · simpa [WepSetter.pos?] using ih.2
    | pos v =>
      refine ⟨(wepGetweight_setpos _ v).trans ?_, (wepGetpos_setpos _ v).trans ?_⟩
      · simpa [WepSetter.weight?] using ih.1
      · simp [WepSetter.pos?]

/-! ## What the macros find -/

variable (V : Stored) (addr : ℕ) (rest : Ptr)

/-- A pointer to a tsvector, in a memory that goes on behind it. -/
def Stored.ptr : CharPtr := ⟨addr, V.bytes ++ rest⟩

theorem length_entries : V.entries.length = V.lexemes.length := List.length_mapIdx

theorem length_lexemes_lt : V.lexemes.length < 2 ^ 32 := by
  have h := V.size_lt
  unfold calcdatasize at h
  omega

/-- **A tsvector is as long as computed.** -/
theorem length_bytes : V.bytes.length = calcdatasize V.lexemes.length V.strings.length := by
  have hentries : (V.entries.flatMap (wordBytes 4)).length = 4 * V.lexemes.length := by
    rw [flatMap_wordBytes_length, length_entries]
  rw [Stored.bytes, List.length_append, List.length_append, List.length_append, hentries,
    wordBytes_length, wordBytes_length]
  unfold calcdatasize datahdrsize
  omega

theorem size_ptr : size (V.ptr addr rest) = some (BitVec.ofNat 32 V.lexemes.length) := by
  show readWord 4 ((V.bytes ++ rest).drop (4 + 0)) = _
  rw [Stored.bytes, List.append_assoc, drop_wordBytes_four, List.drop_zero, List.append_assoc,
    readWord_wordBytes_four]

/-- The memory from the entries on. -/
theorem drop_header : (V.bytes ++ rest).drop datahdrsize =
    V.entries.flatMap (wordBytes 4) ++ (V.strings ++ rest) := by
  show (V.bytes ++ rest).drop (4 + (4 + 0)) = _
  rw [Stored.bytes, List.append_assoc, drop_wordBytes_four, List.append_assoc,
    drop_wordBytes_four, List.drop_zero, List.append_assoc]

/-- **The entry of a lexeme.** -/
theorem entry_ptr {i : ℕ} {lex : Lexeme} (h : V.lexemes[i]? = some lex) :
    entry (V.ptr addr rest) i = some (lex.entry (startOf V.lexemes i)) := by
  have hentry : V.entries[i]? = some (lex.entry (startOf V.lexemes i)) := by
    rw [Stored.entries, List.getElem?_mapIdx, h]
    rfl
  show readWord 4 (((V.bytes ++ rest).drop datahdrsize).drop (4 * i)) = _
  rw [drop_header, Pack.drop_flatMap (wordBytes_length 4) hentry, readWord_wordBytes_four]

/-- The data of the lexemes. -/
theorem strptr_ptr : strptr (V.ptr addr rest) =
    some ⟨addr + datahdrsize + 4 * V.lexemes.length, V.strings ++ rest⟩ := by
  have hentries : (V.entries.flatMap (wordBytes 4)).length = 4 * V.lexemes.length := by
    rw [flatMap_wordBytes_length, length_entries]
  rw [strptr, size_ptr, Option.map_some, BitVec.toNat_ofNat,
    Nat.mod_eq_of_lt (length_lexemes_lt V)]
  show some (CharPtr.mk _ (((V.bytes ++ rest).drop datahdrsize).drop (4 * V.lexemes.length))) = _
  rw [drop_header, ← hentries, List.drop_left]
  rfl

/-- **The data of a lexeme**, behind its start. -/
theorem drop_data {i : ℕ} {lex : Lexeme} (h : V.lexemes[i]? = some lex) :
    ∃ tail, (V.strings ++ rest).drop (startOf V.lexemes i) =
      lex.data (startOf V.lexemes i) ++ tail := by
  have hle : startOf V.lexemes i ≤ V.strings.length := by
    have hend := Pack.start_le Lexeme.data 0 V.lexemes i
    rwa [Nat.zero_add] at hend
  refine ⟨Pack.pack Lexeme.data (startOf V.lexemes (i + 1)) (V.lexemes.drop (i + 1)) ++ rest, ?_⟩
  rw [List.drop_append_of_le_length hle, ← List.append_assoc]
  exact congrArg (· ++ rest) (Pack.drop_start Lexeme.data 0 h)

section

variable {V} {i : ℕ} {lex : Lexeme}

/-- The offset has room in its field. -/
theorem pos_entry (h : V.lexemes[i]? = some lex) :
    (lex.entry (startOf V.lexemes i)).pos.toNat = startOf V.lexemes i := by
  obtain ⟨hi, -⟩ := List.getElem?_eq_some_iff.mp h
  rw [Lexeme.entry, pos_of, BitVec.toNat_ofNat]
  exact Nat.mod_eq_of_lt ((V.start_le i hi).trans_lt (by decide))

/-- The length has room in its field. -/
theorem len_entry (h : V.lexemes[i]? = some lex) :
    (lex.entry (startOf V.lexemes i)).len.toNat = lex.text.length := by
  rw [Lexeme.entry, len_of, BitVec.toNat_ofNat]
  exact Nat.mod_eq_of_lt ((V.text_le lex (List.mem_of_getElem? h)).trans_lt (by decide))

/-- **The positions of a lexeme**, and before them their number. -/
theorem posvecptr_ptr (h : V.lexemes[i]? = some lex) {ps : List WordEntryPos}
    (hps : lex.positions = some ps) :
    ∃ p tail, posvecptr (V.ptr addr rest) (lex.entry (startOf V.lexemes i)) = some p ∧
      (4 ∣ addr → 2 ∣ p.addr) ∧
      p.mem = wordBytes 2 (BitVec.ofNat 16 ps.length) ++ (ps.flatMap (wordBytes 2) ++ tail) := by
  obtain ⟨tail, hdrop⟩ := drop_data V rest h
  generalize hend : startOf V.lexemes i + lex.text.length = stop
  have hle : stop ≤ shortalign stop := le_typealign 1 stop
  refine ⟨CharPtr.add ⟨addr + datahdrsize + 4 * V.lexemes.length, V.strings ++ rest⟩
    (shortalign stop), tail, ?_, ?_, ?_⟩
  · rw [posvecptr, strptr_ptr, Option.map_some, pos_entry h, len_entry h, hend]
  · intro haddr
    have halign : shortalign stop = (stop + 1) / 2 * 2 := typealign_eq 1 stop
    show 2 ∣ addr + datahdrsize + 4 * V.lexemes.length + shortalign stop
    rw [halign, datahdrsize]
    omega
  · show (V.strings ++ rest).drop (shortalign stop) = _
    have hsplit : shortalign stop = startOf V.lexemes i +
        (lex.text ++ List.replicate (shortalign stop - stop) lex.pad).length := by
      rw [List.length_append, List.length_replicate]
      omega
    have hdata : lex.data (startOf V.lexemes i) =
        (lex.text ++ List.replicate (shortalign stop - stop) lex.pad) ++
          (wordBytes 2 (BitVec.ofNat 16 ps.length) ++ ps.flatMap (wordBytes 2)) := by
      rw [Lexeme.data, hps, hend, List.append_assoc]
    rw [hsplit, ← List.drop_drop, hdrop, hdata, List.append_assoc, List.drop_left,
      List.append_assoc]

end

/-- **A tsvector is read as it is stored**, by the macros: it has as many lexemes and is as long
as it says, and the entry of each lexeme leads to its text, to the number of its positions, and,
at an aligned address, to each of its positions. -/
theorem tsvector_reads :
    size (V.ptr addr rest) = some (BitVec.ofNat 32 V.lexemes.length) ∧
      V.bytes.length = calcdatasize V.lexemes.length V.strings.length ∧
      ∀ i lex, V.lexemes[i]? = some lex → ∃ e str, entry (V.ptr addr rest) i = some e ∧
        strptr (V.ptr addr rest) = some str ∧
        (str.add e.pos.toNat).mem.take e.len.toNat = lex.text ∧
        posdatalen (V.ptr addr rest) e =
          some (BitVec.ofNat 16 (lex.positions.getD []).length) ∧
        ∀ ps, lex.positions = some ps → ∃ p, posdataptr (V.ptr addr rest) e = some p ∧
          (4 ∣ addr → 2 ∣ p.addr) ∧
          ∀ j w, ps[j]? = some w → readWord 2 (p.add (2 * j)).mem = some w := by
  refine ⟨size_ptr V addr rest, length_bytes V, fun i lex h => ?_⟩
  refine ⟨_, _, entry_ptr V addr rest h, strptr_ptr V addr rest, ?_, ?_, fun ps hps => ?_⟩
  · obtain ⟨tail, hdrop⟩ := drop_data V rest h
    rw [pos_entry h, len_entry h]
    show ((V.strings ++ rest).drop (startOf V.lexemes i)).take lex.text.length = lex.text
    rw [hdrop, Lexeme.data, List.append_assoc, List.take_left]
  · have hhas : (lex.entry (startOf V.lexemes i)).haspos = BitVec.ofBool lex.positions.isSome :=
      haspos_of _ _ _
    rw [posdatalen, hhas]
    cases hps : lex.positions with
    | none => rfl
    | some ps =>
      obtain ⟨p, tail, hp, -, hmem⟩ := posvecptr_ptr addr rest h hps
      refine (if_pos ?_).trans ?_
      · show BitVec.ofBool true ≠ 0
        decide
      · rw [hp, Option.bind_some, hmem, readWord_wordBytes]
        exact congrArg some (BitVec.setWidth_eq _)
  · obtain ⟨p, tail, hp, haligned, hmem⟩ := posvecptr_ptr addr rest h hps
    refine ⟨p.add 2, ?_, fun haddr => ?_, fun j w hw => ?_⟩
    · rw [posdataptr, hp]
      rfl
    · have heven := haligned haddr
      show 2 ∣ p.addr + 2
      omega
    · show readWord 2 ((p.mem.drop 2).drop (2 * j)) = some w
      rw [hmem, List.drop_left' (wordBytes_length 2 _), Pack.drop_flatMap (wordBytes_length 2) hw,
        readWord_wordBytes]
      exact congrArg some (BitVec.setWidth_eq w)

/-- `'a' 'at':3B`: the second lexeme has a byte of padding and one position. -/
def atAndA : Stored where
  lexemes := [⟨[97], none, 0⟩, ⟨[97, 116], some [wepSetweight (wepSetpos 0xffff 3) 2], 0⟩]
  text_le := by decide
  start_le := by decide
  npos_lt := by decide
  size_lt := by
    have halign : shortalign 3 = 4 := typealign_eq 1 3
    simp [calcdatasize, datahdrsize, Pack.pack, Lexeme.data, halign, wordBytes_length]

/-- It is read back. -/
theorem tsvector_reads_at :
    ∃ e p, entry (atAndA.ptr 0 []) 1 = some e ∧ posdatalen (atAndA.ptr 0 []) e = some 1 ∧
      posdataptr (atAndA.ptr 0 []) e = some p ∧ readWord 2 (p.add 0).mem = some 0x8003 := by
  obtain ⟨e, str, he, -, -, hlen, hpos⟩ := (tsvector_reads atAndA 0 []).2.2 1 _ rfl
  obtain ⟨p, hp, -, hread⟩ := hpos _ rfl
  exact ⟨e, p, he, hlen, hp, hread 0 _ rfl⟩

end TsVector
