import PgCitus.PgBswap

/-!
# Integers in messages

The inline functions of `libpq/pqformat.h` that put integers into a message, with their
highest byte first. `pq_writeint8` and the like leave it to the caller that there is
room; `pq_sendint8` and the like ask `enlargeStringInfo` for it each time.

A caller that sends several integers may ask once for as many bytes as they have
together. `send_write_agree` says that this comes to the same: the message is the same,
no `Assert` fails, and the buffer has room for a terminating zero byte afterwards, as it
must have at any time. `enlargeStringInfo` is a parameter (`EnlargeSpec`).
-/

namespace PqFormat

open WordMemory PgBswap

/-! ## Buffers -/

/-- `StringInfoData`. That `maxlen` is an `int` is a field. -/
structure StringInfoData where
  data : Mem
  len : ℕ
  maxlen : ℕ
  cursor : ℕ
  maxlen_lt : maxlen < 2 ^ 31

/-- What a buffer holds. -/
def content (buf : StringInfoData) : List (BitVec 8) := (List.range buf.len).map buf.data

/-- How one of the functions fails: an error that `enlargeStringInfo` raises, an
assertion, or an error it reports itself. -/
inductive PqError (ε : Type*) where
  | raised (e : ε)
  | assert
  | elog (message : String)

variable {ε : Type*}

/-- What `stringinfo.h` says of `enlargeStringInfo`: unless it raises an error it keeps
the content, and there is room for `needed` bytes and a terminating zero byte. For more
bytes than an `int` can count there is never room. -/
def EnlargeSpec (enlargeStringInfo : StringInfoData → ℕ → Except ε StringInfoData) : Prop :=
  ∀ buf needed buf', buf.len < buf.maxlen → enlargeStringInfo buf needed = .ok buf' →
    buf'.len = buf.len ∧ (∀ i < buf.len, buf'.data i = buf.data i) ∧
      buf.len + needed < buf'.maxlen

/-! ## Writing -/

/-- The common part of the functions that write: the assertion, the copy and the new
length. Where the sum in the assertion overflows, it is not below `maxlen` either. -/
def pqWrite {n : ℕ} (order : ByteOrder) (buf : StringInfoData) (ni : BitVec (8 * n)) :
    Except (PqError ε) StringInfoData :=
  if buf.len + n ≤ buf.maxlen then
    .ok { buf with data := store order buf.data buf.len ni, len := buf.len + n }
  else .error .assert

section Functions

variable (order : ByteOrder)

/-- `pq_writeint8`. -/
def pqWriteint8 (buf : StringInfoData) (i : BitVec 8) : Except (PqError ε) StringInfoData :=
  pqWrite (n := 1) order buf i

/-- `pq_writeint16`. -/
def pqWriteint16 (buf : StringInfoData) (i : BitVec 16) : Except (PqError ε) StringInfoData :=
  pqWrite (n := 2) order buf (pgHton16 order i)

/-- `pq_writeint32`. -/
def pqWriteint32 (buf : StringInfoData) (i : BitVec 32) : Except (PqError ε) StringInfoData :=
  pqWrite (n := 4) order buf (pgHton32 order i)

/-- `pq_writeint64`. -/
def pqWriteint64 (buf : StringInfoData) (i : BitVec 64) : Except (PqError ε) StringInfoData :=
  pqWrite (n := 8) order buf (pgHton64 order i)

variable (enlargeStringInfo : StringInfoData → ℕ → Except ε StringInfoData)

/-- A call of `enlargeStringInfo`, with the errors it raises. -/
def enlarge (buf : StringInfoData) (needed : ℕ) : Except (PqError ε) StringInfoData :=
  (enlargeStringInfo buf needed).mapError .raised

/-- `pq_sendint8`. -/
def pqSendint8 (buf : StringInfoData) (i : BitVec 8) : Except (PqError ε) StringInfoData := do
  let buf ← enlarge enlargeStringInfo buf 1
  pqWriteint8 order buf i

/-- `pq_sendint16`. -/
def pqSendint16 (buf : StringInfoData) (i : BitVec 16) : Except (PqError ε) StringInfoData := do
  let buf ← enlarge enlargeStringInfo buf 2
  pqWriteint16 order buf i

/-- `pq_sendint32`. -/
def pqSendint32 (buf : StringInfoData) (i : BitVec 32) : Except (PqError ε) StringInfoData := do
  let buf ← enlarge enlargeStringInfo buf 4
  pqWriteint32 order buf i

/-- `pq_sendint64`. -/
def pqSendint64 (buf : StringInfoData) (i : BitVec 64) : Except (PqError ε) StringInfoData := do
  let buf ← enlarge enlargeStringInfo buf 8
  pqWriteint64 order buf i

/-- `pq_sendint`. -/
def pqSendint (buf : StringInfoData) (i : BitVec 32) (b : ℤ) :
    Except (PqError ε) StringInfoData :=
  match b with
  | 1 => pqSendint8 order enlargeStringInfo buf (i.setWidth 8)
  | 2 => pqSendint16 order enlargeStringInfo buf (i.setWidth 16)
  | 4 => pqSendint32 order enlargeStringInfo buf i
  | _ => .error (.elog s!"unsupported integer size {b}")

end Functions

/-! ## Messages -/

/-- **An integer of a message**, with its width. -/
inductive Field where
  | int8 (i : BitVec 8)
  | int16 (i : BitVec 16)
  | int32 (i : BitVec 32)
  | int64 (i : BitVec 64)

namespace Field

/-- The width, in bytes. -/
def width : Field → ℕ
  | int8 _ => 1
  | int16 _ => 2
  | int32 _ => 4
  | int64 _ => 8

/-- The bytes of an integer, the highest one first. -/
def bigEndian : Field → List (BitVec 8)
  | int8 i => bytes (n := 1) .big i
  | int16 i => bytes (n := 2) .big i
  | int32 i => bytes (n := 4) .big i
  | int64 i => bytes (n := 8) .big i

/-- The function that writes an integer of this width. -/
def write (order : ByteOrder) (buf : StringInfoData) : Field → Except (PqError ε) StringInfoData
  | int8 i => pqWriteint8 order buf i
  | int16 i => pqWriteint16 order buf i
  | int32 i => pqWriteint32 order buf i
  | int64 i => pqWriteint64 order buf i

/-- The function that sends an integer of this width. -/
def send (order : ByteOrder) (enlargeStringInfo : StringInfoData → ℕ → Except ε StringInfoData)
    (buf : StringInfoData) : Field → Except (PqError ε) StringInfoData
  | int8 i => pqSendint8 order enlargeStringInfo buf i
  | int16 i => pqSendint16 order enlargeStringInfo buf i
  | int32 i => pqSendint32 order enlargeStringInfo buf i
  | int64 i => pqSendint64 order enlargeStringInfo buf i

end Field

/-- **A call that sends an integer**: of the function for its width, or of `pq_sendint`. -/
inductive SendCall where
  | sendintN (field : Field)
  | sendint (i : BitVec 32) (b : ℤ)

/-- The call. -/
def SendCall.run (order : ByteOrder)
    (enlargeStringInfo : StringInfoData → ℕ → Except ε StringInfoData) (buf : StringInfoData) :
    SendCall → Except (PqError ε) StringInfoData
  | sendintN field => field.send order enlargeStringInfo buf
  | sendint i b => pqSendint order enlargeStringInfo buf i b

/-- **Which integer a call sends**: `pq_sendint` sends the lowest bytes of its argument. -/
inductive SendCall.Sends : SendCall → Field → Prop where
  | sendintN (field : Field) : Sends (.sendintN field) field
  | sendint1 (i : BitVec 32) : Sends (.sendint i 1) (.int8 (i.setWidth 8))
  | sendint2 (i : BitVec 32) : Sends (.sendint i 2) (.int16 (i.setWidth 16))
  | sendint4 (i : BitVec 32) : Sends (.sendint i 4) (.int32 i)

/-- Sending integers one by one. -/
def sendAll (order : ByteOrder) (enlargeStringInfo : StringInfoData → ℕ → Except ε StringInfoData)
    (calls : List SendCall) (buf : StringInfoData) : Except (PqError ε) StringInfoData :=
  calls.foldlM (fun buf call => call.run order enlargeStringInfo buf) buf

/-- Writing integers one by one. -/
def writeAll (order : ByteOrder) (fields : List Field) (buf : StringInfoData) :
    Except (PqError ε) StringInfoData :=
  fields.foldlM (fun buf field => field.write order buf) buf

/-- Asking for room once, and then writing. -/
def reserveAndWrite (order : ByteOrder)
    (enlargeStringInfo : StringInfoData → ℕ → Except ε StringInfoData) (fields : List Field)
    (buf : StringInfoData) : Except (PqError ε) StringInfoData := do
  let buf ← enlarge enlargeStringInfo buf (fields.map Field.width).sum
  writeAll order fields buf

/-! ## What one call does -/

/-- **Bytes were appended**, and there is room for a terminating zero byte. -/
structure Appended (buf : StringInfoData) (bs : List (BitVec 8)) (buf' : StringInfoData) :
    Prop where
  content_eq : content buf' = content buf ++ bs
  len_eq : buf'.len = buf.len + bs.length
  room : buf'.len < buf'.maxlen

theorem Appended.nil {buf : StringInfoData} (h : buf.len < buf.maxlen) : Appended buf [] buf :=
  ⟨(List.append_nil _).symm, rfl, h⟩

theorem Appended.trans {buf buf' buf'' : StringInfoData} {bs bs' : List (BitVec 8)}
    (h : Appended buf bs buf') (h' : Appended buf' bs' buf'') :
    Appended buf (bs ++ bs') buf'' := by
  refine ⟨?_, ?_, h'.room⟩
  · rw [h'.content_eq, h.content_eq, List.append_assoc]
  · rw [h'.len_eq, h.len_eq, List.length_append, Nat.add_assoc]

/-- What `enlargeStringInfo` gives back has the content it had, and room. -/
theorem EnlargeSpec.appended_nil
    {enlargeStringInfo : StringInfoData → ℕ → Except ε StringInfoData}
    (he : EnlargeSpec enlargeStringInfo) {buf buf' : StringInfoData} {needed : ℕ}
    (hroom : buf.len < buf.maxlen) (h : enlargeStringInfo buf needed = .ok buf') :
    Appended buf [] buf' ∧ buf'.len + needed < buf'.maxlen := by
  obtain ⟨hlen, hdata, hmax⟩ := he buf needed buf' hroom h
  have hcontent : content buf' = content buf := by
    unfold content
    rw [hlen]
    exact List.map_congr_left fun i hi => hdata i (List.mem_range.mp hi)
  rw [← hlen] at hmax
  refine ⟨⟨hcontent.trans (List.append_nil _).symm, hlen, ?_⟩, hmax⟩
  exact (Nat.le_add_right _ needed).trans_lt hmax

/-- **Writing a word** where there is room for it and one byte more. -/
theorem pqWrite_ok {n : ℕ} (order : ByteOrder) {buf : StringInfoData} (ni : BitVec (8 * n))
    (hroom : buf.len + n < buf.maxlen) :
    ∃ buf', (pqWrite order buf ni : Except (PqError ε) _) = .ok buf' ∧
      Appended buf (bytes order ni) buf' ∧ buf'.maxlen = buf.maxlen := by
  refine ⟨_, if_pos hroom.le, ⟨map_store order buf.data buf.len ni, ?_, hroom⟩, rfl⟩
  rw [length_bytes]

namespace Field

@[simp] theorem length_bigEndian (field : Field) : field.bigEndian.length = field.width := by
  cases field <;> exact length_bytes .big _

/-- The word that is copied into the buffer. -/
def word (order : ByteOrder) : (field : Field) → BitVec (8 * field.width)
  | int8 i => i
  | int16 i => pgHton16 order i
  | int32 i => pgHton32 order i
  | int64 i => pgHton64 order i

/-- Its bytes are those of the integer, the highest one first, whatever the byte order of
the machine is. -/
theorem bytes_word (order : ByteOrder) (field : Field) :
    bytes order (field.word order) = field.bigEndian := by
  cases field with
  | int8 i => cases order <;> rfl
  | int16 i => exact bytes_pgHton16 order i
  | int32 i => exact bytes_pgHton32 order i
  | int64 i => exact bytes_pgHton64 order i

theorem write_eq (order : ByteOrder) (buf : StringInfoData) (field : Field) :
    (field.write order buf : Except (PqError ε) _) = pqWrite order buf (field.word order) := by
  cases field <;> rfl

/-- **Writing an integer** where there is room for it and one byte more. -/
theorem write_ok (order : ByteOrder) {buf : StringInfoData} (field : Field)
    (hroom : buf.len + field.width < buf.maxlen) :
    ∃ buf', (field.write order buf : Except (PqError ε) _) = .ok buf' ∧
      Appended buf field.bigEndian buf' ∧ buf'.maxlen = buf.maxlen := by
  rw [write_eq, ← bytes_word order field]
  exact pqWrite_ok order (field.word order) hroom

/-- Sending is asking for room and writing. -/
theorem send_eq (order : ByteOrder)
    (enlargeStringInfo : StringInfoData → ℕ → Except ε StringInfoData) (buf : StringInfoData)
    (field : Field) :
    field.send order enlargeStringInfo buf
      = (enlarge enlargeStringInfo buf field.width).bind (field.write order) := by
  cases field <;> rfl

end Field

/-- A call sends what it says. -/
theorem SendCall.Sends.run_eq {call : SendCall} {field : Field} (h : call.Sends field)
    (order : ByteOrder) (enlargeStringInfo : StringInfoData → ℕ → Except ε StringInfoData)
    (buf : StringInfoData) :
    call.run order enlargeStringInfo buf = field.send order enlargeStringInfo buf := by
  cases h <;> rfl

/-! ## What many calls do -/

/-- The message of many integers. -/
def encode (fields : List Field) : List (BitVec 8) := fields.flatMap Field.bigEndian

/-- **All calls succeed but for what `enlargeStringInfo` raises**, and they append. -/
def AppendsOrRaises (buf : StringInfoData) (bs : List (BitVec 8))
    (r : Except (PqError ε) StringInfoData) : Prop :=
  (∃ e, r = .error (.raised e)) ∨ ∃ buf', r = .ok buf' ∧ Appended buf bs buf'

theorem AppendsOrRaises.of_ok {buf buf' : StringInfoData} {bs : List (BitVec 8)}
    {r : Except (PqError ε) StringInfoData} (h : AppendsOrRaises buf bs r) (hr : r = .ok buf') :
    Appended buf bs buf' := by
  rcases h with ⟨e, he⟩ | ⟨buf'', hok, happ⟩
  · cases he.symm.trans hr
  · cases hok.symm.trans hr
    exact happ

theorem length_encode (fields : List Field) :
    (encode fields).length = (fields.map Field.width).sum := by
  unfold encode
  rw [List.length_flatMap]
  simp

/-- **Writing many integers** where there is room for all and one byte more: by induction,
each leaves room for the others. -/
theorem writeAll_ok (order : ByteOrder) {buf : StringInfoData} (fields : List Field)
    (hroom : buf.len + (fields.map Field.width).sum < buf.maxlen) :
    ∃ buf', (writeAll order fields buf : Except (PqError ε) _) = .ok buf' ∧
      Appended buf (encode fields) buf' := by
  induction fields generalizing buf with
  | nil => exact ⟨buf, rfl, Appended.nil hroom⟩
  | cons field fields ih =>
    rw [List.map_cons, List.sum_cons] at hroom
    have hfirst : buf.len + field.width < buf.maxlen := by omega
    obtain ⟨buf', hwrite, happ, hmax⟩ : ∃ buf', (field.write order buf : Except (PqError ε) _)
        = .ok buf' ∧ Appended buf field.bigEndian buf' ∧ buf'.maxlen = buf.maxlen :=
      field.write_ok order hfirst
    have hlen := happ.len_eq
    rw [Field.length_bigEndian] at hlen
    have hothers : buf'.len + (fields.map Field.width).sum < buf'.maxlen := by omega
    obtain ⟨buf'', hrest, happ'⟩ := ih hothers
    refine ⟨buf'', ?_, happ.trans happ'⟩
    unfold writeAll
    rw [List.foldlM_cons, hwrite]
    exact hrest

section Enlarge

variable {enlargeStringInfo : StringInfoData → ℕ → Except ε StringInfoData}
  (he : EnlargeSpec enlargeStringInfo)
include he

/-- **Asking for room and then writing** appends, unless there is no room to be had. -/
theorem enlarge_bind_appends {buf : StringInfoData} (hroom : buf.len < buf.maxlen) {needed : ℕ}
    {bs : List (BitVec 8)} {write : StringInfoData → Except (PqError ε) StringInfoData}
    (hwrite : ∀ buf' : StringInfoData, buf'.len + needed < buf'.maxlen →
      ∃ buf'', write buf' = .ok buf'' ∧ Appended buf' bs buf'') :
    AppendsOrRaises buf bs ((enlarge enlargeStringInfo buf needed).bind write) := by
  unfold enlarge
  cases h : enlargeStringInfo buf needed with
  | error e => exact .inl ⟨e, rfl⟩
  | ok buf' =>
    obtain ⟨hnil, hmax⟩ := he.appended_nil hroom h
    obtain ⟨buf'', hok, happ⟩ := hwrite buf' hmax
    exact .inr ⟨buf'', hok, hnil.trans happ⟩

/-- **Sending an integer** appends it. -/
theorem Field.send_appends (order : ByteOrder) {buf : StringInfoData}
    (hroom : buf.len < buf.maxlen) (field : Field) :
    AppendsOrRaises buf field.bigEndian (field.send order enlargeStringInfo buf) := by
  rw [Field.send_eq]
  refine enlarge_bind_appends he hroom fun buf' hmax => ?_
  obtain ⟨buf'', hok, happ, -⟩ := field.write_ok order hmax
  exact ⟨buf'', hok, happ⟩

/-- **Sending many integers** appends them, by induction: each call leaves the room that
the next one needs to ask for more. -/
theorem sendAll_appends (order : ByteOrder) {calls : List SendCall} {fields : List Field}
    (h : List.Forall₂ SendCall.Sends calls fields) {buf : StringInfoData}
    (hroom : buf.len < buf.maxlen) :
    AppendsOrRaises buf (encode fields) (sendAll order enlargeStringInfo calls buf) := by
  induction h generalizing buf with
  | nil => exact .inr ⟨buf, rfl, Appended.nil hroom⟩
  | @cons call field calls fields hcall _ ih =>
    unfold sendAll
    rw [List.foldlM_cons, hcall.run_eq]
    rcases Field.send_appends he order hroom field with ⟨e, herr⟩ | ⟨buf', hok, happ⟩
    · rw [herr]
      exact .inl ⟨e, rfl⟩
    · rw [hok]
      rcases ih happ.room with ⟨e, herr⟩ | ⟨buf'', hok', happ'⟩
      · exact .inl ⟨e, herr⟩
      · exact .inr ⟨buf'', hok', happ.trans happ'⟩

theorem reserveAndWrite_appends (order : ByteOrder) (fields : List Field)
    {buf : StringInfoData} (hroom : buf.len < buf.maxlen) :
    AppendsOrRaises buf (encode fields)
      (reserveAndWrite order enlargeStringInfo fields buf) :=
  enlarge_bind_appends he hroom fun _ hmax => writeAll_ok order fields hmax

end Enlarge

/-- **Sending integers one by one, or asking for the room of all of them and writing
them**: unless `enlargeStringInfo` raises an error, both append the integers with their
highest bytes first, on machines of either byte order. No assertion fails, and in the
end the lengths are the same and there is room for a terminating zero byte. -/
theorem send_write_agree {enlargeStringInfo : StringInfoData → ℕ → Except ε StringInfoData}
    (he : EnlargeSpec enlargeStringInfo) (order : ByteOrder) {buf : StringInfoData}
    (hroom : buf.len < buf.maxlen) {calls : List SendCall} {fields : List Field}
    (hcalls : List.Forall₂ SendCall.Sends calls fields) :
    AppendsOrRaises buf (encode fields) (sendAll order enlargeStringInfo calls buf) ∧
      AppendsOrRaises buf (encode fields) (reserveAndWrite order enlargeStringInfo fields buf) ∧
      ∀ sent written, sendAll order enlargeStringInfo calls buf = .ok sent →
        reserveAndWrite order enlargeStringInfo fields buf = .ok written →
        content sent = content buf ++ encode fields ∧ content written = content sent ∧
          sent.len = buf.len + (fields.map Field.width).sum ∧ written.len = sent.len ∧
          sent.len < sent.maxlen ∧ written.len < written.maxlen := by
  have hsend := sendAll_appends he order hcalls hroom
  have hwrite := reserveAndWrite_appends he order fields hroom
  refine ⟨hsend, hwrite, fun sent written hsent hwritten => ?_⟩
  have happ : Appended buf (encode fields) sent := hsend.of_ok hsent
  have happ' : Appended buf (encode fields) written := hwrite.of_ok hwritten
  have hlen := happ.len_eq
  rw [length_encode] at hlen
  exact ⟨happ.content_eq, happ'.content_eq.trans happ.content_eq.symm, hlen,
    happ'.len_eq.trans happ.len_eq.symm, happ.room, happ'.room⟩

/-- A buffer that is never enlarged. -/
def enlargeWithin (buf : StringInfoData) (needed : ℕ) : Except Unit StringInfoData :=
  if buf.len + needed < buf.maxlen then .ok buf else .error ()

theorem enlargeWithin_spec : EnlargeSpec enlargeWithin := by
  intro buf needed buf' _ h
  unfold enlargeWithin at h
  split_ifs at h with hroom
  cases h
  exact ⟨rfl, fun _ _ => rfl, hroom⟩

/-- A new buffer. -/
def newBuffer : StringInfoData := ⟨fun _ => 0, 0, 1024, 0, by decide⟩

/-- Three integers in a new buffer, which need not be enlarged for them. -/
theorem send_write_agree_newBuffer :
    AppendsOrRaises newBuffer (encode [.int32 1, .int16 ((0x0203#32).setWidth 16), .int64 4])
      (sendAll .little enlargeWithin
        [.sendintN (.int32 1), .sendint 0x0203#32 2, .sendintN (.int64 4)] newBuffer) := by
  have hroom : newBuffer.len < newBuffer.maxlen := Nat.zero_lt_succ 1023
  have hcalls : List.Forall₂ SendCall.Sends
      [.sendintN (.int32 1), .sendint 0x0203#32 2, .sendintN (.int64 4)]
      [.int32 1, .int16 ((0x0203#32).setWidth 16), .int64 4] :=
    .cons (.sendintN _) (.cons (.sendint2 _) (.cons (.sendintN _) .nil))
  exact (send_write_agree enlargeWithin_spec .little hroom hcalls).1

end PqFormat
