/-
  Core/Utils.lean --- reading and writing message bytes (`core/utils.cpp`).

  Integers of four bytes travel most significant byte first.  The reader keeps
  the whole buffer and a cursor; a read past the end throws and moves nothing.
-/
import BitTorrentClient.Core.Failure

set_option autoImplicit false

namespace BitTorrentClient

/-- The four bytes of `htonl`. -/
def htonl (val : Nat) : Bytes :=
  [UInt8.ofNat (val / 2 ^ 24), UInt8.ofNat (val / 2 ^ 16), UInt8.ofNat (val / 2 ^ 8),
    UInt8.ofNat val]

/-- The number whose digits to the base 256 are the bytes. -/
def ntohl (bytes : Bytes) : Nat := bytes.foldl (fun n byte => n * 256 + byte.toNat) 0

/-- What is written is read back. -/
theorem ntohl_htonl {n : Nat} (h : n < 2 ^ 32) : ntohl (htonl n) = n := by
  simp only [ntohl, htonl, List.foldl_cons, List.foldl_nil, UInt8.toNat_ofNat']
  omega

/-- And what is read is written back. -/
theorem htonl_ntohl {bytes : Bytes} (h : bytes.length = 4) : htonl (ntohl bytes) = bytes := by
  match bytes, h with
  | [a, b, c, d], _ =>
    have ha := a.toNat_lt
    have hb := b.toNat_lt
    have hc := c.toNat_lt
    have hd := d.toNat_lt
    simp only [ntohl, htonl, List.foldl_cons, List.foldl_nil, List.cons.injEq, and_true]
    refine ⟨?_, ?_, ?_, ?_⟩ <;>
      · refine UInt8.toNat_inj.mp ?_
        rw [UInt8.toNat_ofNat']
        omega

theorem ntohl_lt {bytes : Bytes} (h : bytes.length = 4) : ntohl bytes < 2 ^ 32 := by
  match bytes, h with
  | [a, b, c, d], _ =>
    have ha := a.toNat_lt
    have hb := b.toNat_lt
    have hc := c.toNat_lt
    have hd := d.toNat_lt
    simp only [ntohl, List.foldl_cons, List.foldl_nil]
    omega

/-- Collects the bytes of a message. -/
structure ByteWriter where
  data : Bytes := []
  deriving DecidableEq, Repr

namespace ByteWriter

def writeU32 (writer : ByteWriter) (val : Nat) : ByteWriter where
  data := writer.data ++ htonl val

def writeU8 (writer : ByteWriter) (val : UInt8) : ByteWriter where
  data := writer.data ++ [val]

/-- Bytes are written one after another. -/
theorem data_foldl_writeU8 (writer : ByteWriter) (bytes : Bytes) :
    (bytes.foldl writeU8 writer).data = writer.data ++ bytes := by
  induction bytes generalizing writer with
  | nil => simp
  | cons byte bytes ih => simp [ih, writeU8]

end ByteWriter

/-- Reads the bytes of a message in order. -/
structure ByteReader where
  buffer : Bytes
  cursor : Nat := 0
  deriving DecidableEq, Repr

namespace ByteReader

def readU32 (reader : ByteReader) : Except StdException (Nat × ByteReader) :=
  if reader.buffer.length < reader.cursor + 4 then .error (.outOfRange "Buffer underflow")
  else .ok (ntohl ((reader.buffer.drop reader.cursor).take 4),
    { reader with cursor := reader.cursor + 4 })

/-- The bytes from the cursor on. -/
def readRemaining (reader : ByteReader) : Bytes := reader.buffer.drop reader.cursor

/-- A read of four bytes throws exactly when fewer are left. -/
theorem readU32_cases (reader : ByteReader) :
    (reader.buffer.length < reader.cursor + 4 ∧
      reader.readU32 = .error (.outOfRange "Buffer underflow")) ∨
    (reader.cursor + 4 ≤ reader.buffer.length ∧
      reader.readU32 = .ok (ntohl ((reader.buffer.drop reader.cursor).take 4),
        { reader with cursor := reader.cursor + 4 })) := by
  unfold readU32
  split
  · rename_i hshort
    exact Or.inl ⟨hshort, rfl⟩
  · rename_i hlong
    exact Or.inr ⟨Nat.le_of_not_lt hlong, rfl⟩

end ByteReader

end BitTorrentClient
