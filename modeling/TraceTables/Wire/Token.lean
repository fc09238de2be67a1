import TraceTables.Wire.Varint

/-! Tokens of a message: a whole field that is no group, or the start or the end of a group. Each is a key and
what its wire type asks for. -/

namespace TraceTables.Wire

/-- A key's field number and wire type. Its three faults are looked for in the order of the lines. -/
def splitKey (key : Nat) : Except Fault (Nat × WireType) :=
  if 2 ^ 32 ≤ key then .error (.badKey key)
  else
    match WireType.ofCode? (key % 8) with
    | none => .error (.badWireType (key % 8))
    | some w => if key / 8 = 0 then .error .zeroNumber else .ok (key / 8, w)

def joinKey (number : Nat) (w : WireType) : Nat := 8 * number + w.code

theorem splitKey_joinKey {number : Nat} (w : WireType) (h0 : number ≠ 0) (h : number < 2 ^ 29) :
    splitKey (joinKey number w) = .ok (number, w) := by
  have hc : w.code < 8 := by cases w <;> decide
  have hm : joinKey number w % 8 = w.code := by unfold joinKey; omega
  have hd : joinKey number w / 8 = number := by unfold joinKey; omega
  unfold splitKey
  rw [if_neg (by unfold joinKey; omega), hm, hd, WireType.ofCode?_code]
  simp [h0]

def readKey (bytes : List UInt8) : Except Fault ((Nat × WireType) × List UInt8) :=
  match Varint.read bytes with
  | .error e => .error e
  | .ok (key, rest) => (splitKey key.toNat).map fun k => (k, rest)

theorem length_readKey {bytes rest : List UInt8} {k : Nat × WireType}
    (h : readKey bytes = .ok (k, rest)) : rest.length < bytes.length := by
  unfold readKey at h
  split at h
  · cases h
  · rename_i key rest' hr
    obtain ⟨_, -, he⟩ := map_eq_ok.1 h
    cases he
    exact Varint.length_read hr

inductive Token where
  | field (f : Field)
  | groupStart (number : Nat)
  | groupEnd (number : Nat)
deriving DecidableEq

/-- Reads `n` bytes as a number. -/
def readFixed (n : Nat) (bytes : List UInt8) : Except Fault (Nat × List UInt8) :=
  (take n bytes).map fun r => (littleEndian r.1, r.2)

theorem length_readFixed {n v : Nat} {bytes rest : List UInt8} (h : readFixed n bytes = .ok (v, rest)) :
    rest.length + n = bytes.length := by
  obtain ⟨r, hr, he⟩ := map_eq_ok.1 h
  cases he
  obtain ⟨h1, h2⟩ := take_eq_ok hr
  rw [h1, List.length_append]
  omega

/-- A length and that many bytes. -/
def readBytes (bytes : List UInt8) : Except Fault (List UInt8 × List UInt8) :=
  match Varint.read bytes with
  | .error e => .error e
  | .ok (n, rest) => take n.toNat rest

theorem length_readBytes {bytes payload rest : List UInt8} (h : readBytes bytes = .ok (payload, rest)) :
    rest.length < bytes.length := by
  unfold readBytes at h
  split at h
  · cases h
  · rename_i n rest' hr
    have h1 := Varint.length_read hr
    obtain ⟨h2, -⟩ := take_eq_ok h
    rw [h2, List.length_append] at h1
    omega

/-- What follows a key of the wire type. -/
def readToken (number : Nat) (w : WireType) (bytes : List UInt8) : Except Fault (Token × List UInt8) :=
  match w with
  | .varint => (Varint.read bytes).map fun r => (.field ⟨number, .varint r.1⟩, r.2)
  | .fixed64 => (readFixed 8 bytes).map fun r => (.field ⟨number, .fixed64 (UInt64.ofNat r.1)⟩, r.2)
  | .fixed32 => (readFixed 4 bytes).map fun r => (.field ⟨number, .fixed32 (UInt32.ofNat r.1)⟩, r.2)
  | .lengthDelimited => (readBytes bytes).map fun r => (.field ⟨number, .bytes r.1⟩, r.2)
  | .startGroup => .ok (.groupStart number, bytes)
  | .endGroup => .ok (.groupEnd number, bytes)

theorem length_readToken {number : Nat} {w : WireType} {bytes rest : List UInt8} {t : Token}
    (h : readToken number w bytes = .ok (t, rest)) : rest.length ≤ bytes.length := by
  cases w with
  | varint =>
    obtain ⟨r, hr, he⟩ := map_eq_ok.1 h
    cases he
    exact Nat.le_of_lt (Varint.length_read hr)
  | fixed64 | fixed32 =>
    obtain ⟨r, hr, he⟩ := map_eq_ok.1 h
    cases he
    have := length_readFixed hr
    omega
  | lengthDelimited =>
    obtain ⟨r, hr, he⟩ := map_eq_ok.1 h
    cases he
    exact Nat.le_of_lt (length_readBytes hr)
  | startGroup | endGroup => cases h; exact Nat.le_refl _

namespace Token

def read (bytes : List UInt8) : Except Fault (Token × List UInt8) :=
  match readKey bytes with
  | .error e => .error e
  | .ok ((number, w), rest) => readToken number w rest

theorem length_read {bytes rest : List UInt8} {t : Token} (h : read bytes = .ok (t, rest)) :
    rest.length < bytes.length := by
  unfold read at h
  split at h
  · cases h
  · rename_i hk
    exact Nat.lt_of_le_of_lt (length_readToken h) (length_readKey hk)

end Token

end TraceTables.Wire
