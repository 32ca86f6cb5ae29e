/-
  Core/ByteCodec.lean --- the reader undoes the writer (`core/utils.cpp`).

  The member functions of the reader are calls on an object, and what a call leaves of
  the object when it throws matters to whoever catches the exception.  So they are
  translated here with the object as state, which an exception does not take back: that
  nothing has moved when one is thrown is a theorem.  `ByteReader.readU32`, which gives
  the object up with the exception, is the same function as seen by its callers.
-/
import BitTorrentClient.Core.Utils
import BitTorrentClient.Library.Layout
import BitTorrentClient.Library.Machine

set_option autoImplicit false

namespace BitTorrentClient

open Library

/-! ## Fields -/

/-- The kinds of fields that messages are made of. -/
inductive FieldKind where
  | u8
  | u32
  deriving DecidableEq, Repr

/-- A field with its value. -/
inductive Field where
  | u8 (val : UInt8)
  | u32 (val : UInt32)
  deriving DecidableEq, Repr

def Field.kind : Field → FieldKind
  | .u8 _ => .u8
  | .u32 _ => .u32

/-- Write a field. -/
def ByteWriter.write (writer : ByteWriter) : Field → ByteWriter
  | .u8 val => writer.writeU8 val
  | .u32 val => writer.writeU32 val.toNat

/-- Four bytes are one 32-bit field, and one byte an 8-bit field. -/
def fieldLayout : Layout FieldKind Field UInt8 where
  width
    | .u8 => 1
    | .u32 => 4
  kindOf := Field.kind
  encode
    | .u8 val => ⟨[val], rfl⟩
    | .u32 val => ⟨htonl val.toNat, rfl⟩
  decode
    | .u8, bytes => .u8 bytes.head
    | .u32, bytes => .u32 (UInt32.ofNat (ntohl bytes.toList))
  kindOf_decode kind _ := by cases kind <;> rfl
  decode_encode field := by
    cases field with
    | u8 val => rfl
    | u32 val =>
      change Field.u32 (UInt32.ofNat (ntohl (htonl val.toNat))) = _
      rw [ntohl_htonl val.toNat_lt, UInt32.ofNat_toNat]
  encode_decode kind bytes := by
    cases kind with
    | u8 =>
      match bytes with
      | ⟨[byte], _⟩ => rfl
    | u32 =>
      have hlen : bytes.toList.length = 4 := bytes.toList_length
      change htonl (UInt32.ofNat (ntohl bytes.toList)).toNat = _
      rw [UInt32.toNat_ofNat_of_lt' (ntohl_lt hlen), htonl_ntohl hlen]

/-- The writer lays the fields out one behind another. -/
theorem ByteWriter.data_foldl_write (writer : ByteWriter) (fields : List Field) :
    (fields.foldl write writer).data = writer.data ++ fieldLayout.pack fields := by
  induction fields generalizing writer with
  | nil => exact (List.append_nil _).symm
  | cons field fields ih =>
    have hwrite : (writer.write field).data = writer.data ++ (fieldLayout.encode field).toList := by
      cases field <;> rfl
    rw [List.foldl_cons, ih, hwrite, Layout.pack_cons, List.append_assoc]

/-- The first of one byte. -/
theorem head_front {byte : UInt8} {l rest : Bytes} (hl : l = byte :: rest) (h : 1 ≤ l.length) :
    (front l h).head = byte := by
  subst hl
  rfl

namespace ByteReader

/-! ## Calls -/

/-- A call of a member function.  What was assigned before an exception stays assigned. -/
abbrev Call (α : Type) := ExceptT StdException (StateM ByteReader) α

namespace Call

/-- The sum cannot wrap, as the cursor stays inside the buffer. -/
def readU32 : Call Nat := do
  let reader ← get
  if reader.cursor + 4 > reader.buffer.length then throw (.outOfRange "Buffer underflow")
  let val := ntohl ((reader.buffer.drop reader.cursor).take 4)
  set { reader with cursor := reader.cursor + 4 }
  return val

def readU8 : Call UInt8 := do
  let reader ← get
  if h : reader.cursor + 1 > reader.buffer.length then throw (.outOfRange "Buffer underflow")
  else
    let val := reader.buffer.get ⟨reader.cursor, by omega⟩
    set { reader with cursor := reader.cursor + 1 }
    return val

/-- Read a field of this kind. -/
def read : FieldKind → Call Field
  | .u8 => return .u8 (← readU8)
  | .u32 => return .u32 (UInt32.ofNat (← readU32))

/-- Read fields of these kinds, in order. -/
def readFields (kinds : List FieldKind) : Call (List Field) := kinds.mapM read

end Call

/-- What a call returns or throws, and the reader as the call leaves it. -/
def perform {α : Type} (reader : ByteReader) (call : Call α) :
    Except StdException α × ByteReader :=
  (ExceptT.run call).run reader

variable {reader reader' : ByteReader} {kind : FieldKind}

/-- A call that returns goes on with the next one. -/
theorem perform_bind_ok {α β : Type} {call : Call α} {a : α} (next : α → Call β)
    (h : reader.perform call = (.ok a, reader')) :
    reader.perform (call >>= next) = reader'.perform (next a) := by
  unfold perform at h ⊢
  rw [ExceptT.run_bind, StateT.run_bind]
  change (ExceptT.run call).run reader = pure (.ok a, reader') at h
  rw [h, pure_bind]

/-- A call that throws is the last one. -/
theorem perform_bind_error {α β : Type} {call : Call α} {e : StdException} (next : α → Call β)
    (h : reader.perform call = (.error e, reader')) :
    reader.perform (call >>= next) = (.error e, reader') := by
  unfold perform at h ⊢
  rw [ExceptT.run_bind, StateT.run_bind]
  change (ExceptT.run call).run reader = pure (.error e, reader') at h
  rw [h, pure_bind]
  rfl

theorem perform_get : reader.perform get = (.ok reader, reader) := rfl

/-- Too few bytes are left: the check comes before every assignment. -/
theorem perform_read_short (h : reader.readRemaining.length < fieldLayout.width kind) :
    reader.perform (Call.read kind) = (.error (.outOfRange "Buffer underflow"), reader) := by
  rw [readRemaining, List.length_drop] at h
  cases kind with
  | u8 =>
    refine perform_bind_error _ ?_
    have hshort : reader.cursor + 1 > reader.buffer.length := by
      change _ < 1 at h
      omega
    rw [Call.readU8, perform_bind_ok _ perform_get, dif_pos hshort]
    rfl
  | u32 =>
    refine perform_bind_error _ ?_
    have hshort : reader.cursor + 4 > reader.buffer.length := by
      change _ < 4 at h
      omega
    rw [Call.readU32, perform_bind_ok _ perform_get, if_pos hshort]
    rfl

/-- Enough bytes are left: the field is what they stand for. -/
theorem perform_read_long (h : fieldLayout.width kind ≤ reader.readRemaining.length) :
    reader.perform (Call.read kind) = (.ok (fieldLayout.decode kind (front reader.readRemaining h)),
      { reader with cursor := reader.cursor + fieldLayout.width kind }) := by
  have hlen := h
  rw [readRemaining, List.length_drop] at hlen
  cases kind with
  | u8 =>
    have hlong : ¬ reader.cursor + 1 > reader.buffer.length := by
      change 1 ≤ _ at hlen
      omega
    have hfirst : reader.readRemaining = reader.buffer.get ⟨reader.cursor, by omega⟩ ::
        reader.buffer.drop (reader.cursor + 1) := List.drop_eq_getElem_cons _
    have hdecode : fieldLayout.decode .u8 (front reader.readRemaining h) =
        .u8 (reader.buffer.get ⟨reader.cursor, by omega⟩) :=
      congrArg Field.u8 (head_front hfirst h)
    have hread : reader.perform Call.readU8 = (.ok (reader.buffer.get ⟨reader.cursor, by omega⟩),
        { reader with cursor := reader.cursor + 1 }) := by
      rw [Call.readU8, perform_bind_ok _ perform_get, dif_neg hlong]
      rfl
    rw [hdecode]
    exact perform_bind_ok _ hread
  | u32 =>
    have hlong : ¬ reader.cursor + 4 > reader.buffer.length := by
      change 4 ≤ _ at hlen
      omega
    have hread : reader.perform Call.readU32 = (.ok (ntohl (reader.readRemaining.take 4)),
        { reader with cursor := reader.cursor + 4 }) := by
      rw [Call.readU32, perform_bind_ok _ perform_get, if_neg hlong]
      rfl
    exact perform_bind_ok _ hread

/-- `readU32` is the call, for callers that give the object up when it throws. -/
theorem readU32_eq : reader.readU32 = (reader.perform Call.readU32).1.map
    fun val => (val, (reader.perform Call.readU32).2) := by
  rw [Call.readU32, perform_bind_ok _ perform_get]
  rcases readU32_cases reader with ⟨hshort, hread⟩ | ⟨hlong, hread⟩
  · rw [hread, if_pos hshort]
    rfl
  · rw [hread, if_neg (Nat.not_lt.mpr hlong)]
    rfl

/-- What is left behind a read. -/
theorem readRemaining_advance (n : Nat) :
    ({ reader with cursor := reader.cursor + n } : ByteReader).readRemaining =
      reader.readRemaining.drop n := by
  rw [readRemaining, readRemaining, List.drop_drop]

/-- Reading fields takes them off the front of what remains. -/
theorem perform_readFields {kinds : List FieldKind} {fields : List Field} {rest : Bytes}
    (h : fieldLayout.unpack kinds reader.readRemaining = some (fields, rest)) :
    ∃ reader', reader.perform (Call.readFields kinds) = (.ok fields, reader') ∧
      reader'.readRemaining = rest := by
  induction kinds generalizing reader fields with
  | nil =>
    cases h
    exact ⟨reader, rfl, rfl⟩
  | cons kind kinds ih =>
    rw [Layout.unpack] at h
    split at h
    · rename_i hle
      obtain ⟨⟨later, rest'⟩, hlater, heq⟩ := Option.map_eq_some_iff.mp h
      obtain ⟨rfl, rfl⟩ := Prod.mk.inj heq
      rw [← readRemaining_advance] at hlater
      obtain ⟨reader', hread, hrest⟩ := ih hlater
      refine ⟨reader', ?_, hrest⟩
      rw [Call.readFields, List.mapM_cons, perform_bind_ok _ (perform_read_long hle)]
      rw [Call.readFields] at hread
      exact perform_bind_ok _ hread
    · cases h

/-! ## Any calls on one object -/

/-- Fields of any kinds are read, one after another, from one buffer; whoever reads
catches the exceptions and goes on. -/
def reading (buffer : Bytes) : Machine ByteReader (FieldKind × Except StdException Field) where
  init reader := reader = { buffer := buffer }
  step reader l reader' := reader.perform (Call.read l.1) = (l.2, reader')

variable {buffer : Bytes}
  {history : List (Transition ByteReader (FieldKind × Except StdException Field))}

/-- The reader looks at its buffer only, up to the cursor. -/
def Inside (buffer : Bytes) (reader : ByteReader) : Prop :=
  reader.buffer = buffer ∧ reader.cursor ≤ buffer.length

theorem Inside.step {result : Except StdException Field} (h : Inside buffer reader)
    (hstep : reader.perform (Call.read kind) = (result, reader')) : Inside buffer reader' := by
  obtain ⟨rfl, hcursor⟩ := h
  rcases Nat.lt_or_ge reader.readRemaining.length (fieldLayout.width kind) with hshort | hlong
  · rw [perform_read_short hshort] at hstep
    obtain ⟨_, rfl⟩ := Prod.mk.inj hstep
    exact ⟨rfl, hcursor⟩
  · rw [perform_read_long hlong] at hstep
    obtain ⟨_, rfl⟩ := Prod.mk.inj hstep
    rw [readRemaining, List.length_drop] at hlong
    exact ⟨rfl, by simp only; omega⟩

theorem inside_of_run (hrun : (reading buffer).Run history reader) : Inside buffer reader := by
  refine hrun.invariant ?_ fun _ _ _ h hstep => h.step hstep
  rintro reader rfl
  exact ⟨rfl, Nat.zero_le _⟩

/-- A read throws exactly when fewer bytes remain than it needs. -/
theorem throws_iff : (∃ e, (reader.perform (Call.read kind)).1 = .error e) ↔
    reader.readRemaining.length < fieldLayout.width kind := by
  constructor
  · rintro ⟨e, hthrows⟩
    refine Nat.lt_of_not_le fun hlong => ?_
    rw [perform_read_long hlong] at hthrows
    cases hthrows
  · intro hshort
    rw [perform_read_short hshort]
    exact ⟨_, rfl⟩

/-- **Reading undoes writing.**  Fields that were written are read back in order, with
whatever stands behind them left over.  And in any sequence of reads on any buffer, a
read throws exactly when fewer bytes remain than it needs, and then leaves the cursor
where it was. -/
theorem readFields_write :
    (∀ (fields : List Field) (tail : Bytes), ∃ reader,
      perform { buffer := (fields.foldl ByteWriter.write {}).data ++ tail }
        (Call.readFields (fields.map Field.kind)) = (.ok fields, reader) ∧
      reader.readRemaining = tail) ∧
    ∀ buffer history reader, (reading buffer).Run history reader →
      reader.buffer = buffer ∧ reader.cursor ≤ buffer.length ∧ ∀ kind,
        ((∃ e, (reader.perform (Call.read kind)).1 = .error e) ↔
          reader.readRemaining.length < fieldLayout.width kind) ∧
        ∀ e reader', reader.perform (Call.read kind) = (.error e, reader') →
          reader'.cursor = reader.cursor ∧ reader'.readRemaining = reader.readRemaining := by
  constructor
  · intro fields tail
    refine perform_readFields ?_
    rw [ByteWriter.data_foldl_write]
    exact Layout.unpack_pack fields tail
  · intro buffer history reader hrun
    obtain ⟨hbuffer, hcursor⟩ := inside_of_run hrun
    refine ⟨hbuffer, hcursor, fun kind => ⟨throws_iff, fun e reader' hthrows => ?_⟩⟩
    have hshort := throws_iff.mp ⟨e, congrArg Prod.fst hthrows⟩
    rw [perform_read_short hshort] at hthrows
    obtain ⟨_, rfl⟩ := Prod.mk.inj hthrows
    exact ⟨rfl, rfl⟩

/-- A byte and a word are read from six bytes; another word is not, and the last byte is
still there. -/
theorem readFields_write_sixBytes :
    (∃ reader, perform { buffer := [6, 0, 1, 17, 112, 9] } (Call.readFields [.u8, .u32]) =
      (.ok [.u8 6, .u32 70000], reader) ∧ reader.readRemaining = [9]) ∧
    ∃ history reader, (reading [6, 0, 1, 17, 112, 9]).Run history reader ∧ reader.cursor = 5 ∧
      ∃ e reader', reader.perform (Call.read .u32) = (.error e, reader') ∧
        reader'.cursor = 5 ∧ reader'.readRemaining = [9] := by
  refine ⟨readFields_write.1 [.u8 6, .u32 70000] [9], ?_⟩
  have hbyte : (reading [6, 0, 1, 17, 112, 9]).step ⟨[6, 0, 1, 17, 112, 9], 0⟩
      (.u8, .ok (.u8 6)) ⟨[6, 0, 1, 17, 112, 9], 1⟩ := rfl
  have hword : (reading [6, 0, 1, 17, 112, 9]).step ⟨[6, 0, 1, 17, 112, 9], 1⟩
      (.u32, .ok (.u32 70000)) ⟨[6, 0, 1, 17, 112, 9], 5⟩ := rfl
  have hrun := ((Machine.Run.start rfl).snoc hbyte).snoc hword
  exact ⟨_, _, hrun, rfl, _, _, rfl, ((readFields_write.2 _ _ _ hrun).2.2 .u32).2 _ _ rfl⟩

end ByteReader

end BitTorrentClient
