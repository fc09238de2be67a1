import TraceTables.Proofs.Wire.Packed

/-! Writing of fields, each number in its shortest form. What is written is in the grammar, so the reader gives back
the fields; a packed payload gives back its values. -/

namespace TraceTables.Wire

/-- The low `n` bytes of a number, the least significant one first. -/
def writeFixed : Nat → Nat → List UInt8
  | 0, _ => []
  | n + 1, v => UInt8.ofNat v :: writeFixed n (v / 256)

@[simp] theorem length_writeFixed (n v : Nat) : (writeFixed n v).length = n := by
  induction n generalizing v with
  | zero => rfl
  | succ n ih => simp [writeFixed, ih]

theorem littleEndian_writeFixed (n v : Nat) : littleEndian (writeFixed n v) = v % 256 ^ n := by
  induction n generalizing v with
  | zero => simp [writeFixed, littleEndian, Nat.mod_one]
  | succ n ih =>
    have h : littleEndian (writeFixed (n + 1) v) = v % 256 + 256 * littleEndian (writeFixed n (v / 256)) := by
      simp [writeFixed, littleEndian]
    rw [h, ih, Nat.pow_succ', Nat.mod_mul]

@[simp] theorem littleEndian_writeFixed_uint64 (v : UInt64) :
    UInt64.ofNat (littleEndian (writeFixed 8 v.toNat)) = v := by
  rw [littleEndian_writeFixed, Nat.mod_eq_of_lt (by simpa using v.toNat_lt), UInt64.ofNat_toNat]

@[simp] theorem littleEndian_writeFixed_uint32 (v : UInt32) :
    UInt32.ofNat (littleEndian (writeFixed 4 v.toNat)) = v := by
  rw [littleEndian_writeFixed, Nat.mod_eq_of_lt (by simpa using v.toNat_lt), UInt32.ofNat_toNat]

def writeKey (number : Nat) (w : WireType) : List UInt8 := Varint.write (joinKey number w)

/-- A value behind its key. -/
def Value.write : Value → List UInt8
  | varint v => Varint.write v.toNat
  | fixed64 v => writeFixed 8 v.toNat
  | fixed32 v => writeFixed 4 v.toNat
  | bytes payload => Varint.write payload.length ++ payload
  | group body => body

/-- What closes a field: a group's end tag. -/
def Field.close (f : Field) : List UInt8 :=
  match f.value with
  | .group _ => writeKey f.number .endGroup
  | _ => []

def Field.write (f : Field) : List UInt8 :=
  writeKey f.number f.value.wireType ++ (f.value.write ++ f.close)

/-- A field that has a form. Its number leaves room for the wire type, and its length is a varint's. -/
structure Field.Writable (f : Field) : Prop where
  nonzero : f.number ≠ 0
  small : f.number < 2 ^ 29
  sized : ∀ payload, f.value = .bytes payload → payload.length < 2 ^ 64
  closed : ∀ body, f.value = .group body → ∃ inner, MessageForm inner body

theorem Field.length_payload_le {f : Field} {payload : List UInt8} (h : f.value = .bytes payload) :
    payload.length ≤ f.write.length := by
  simp only [write, h, Value.write, List.length_append]
  omega

theorem Field.length_write_le {f : Field} {fs : List Field} (h : f ∈ fs) :
    f.write.length ≤ (fs.flatMap Field.write).length := by
  obtain ⟨before, after, rfl⟩ := List.append_of_mem h
  simp only [List.flatMap_append, List.flatMap_cons, List.length_append]
  omega

theorem keyForm_write {n : Nat} (w : WireType) (h0 : n ≠ 0) (h : n < 2 ^ 29) : KeyForm n w (writeKey n w) := by
  have hw : w.code < 8 := by cases w <;> decide
  have hk : joinKey n w < 2 ^ 32 := by
    unfold joinKey
    omega
  have hn : (UInt64.ofNat (joinKey n w)).toNat = joinKey n w := by
    rw [UInt64.toNat_ofNat', Nat.mod_eq_of_lt (by omega)]
  refine ⟨UInt64.ofNat (joinKey n w), ?_, by omega, hn, h0⟩
  have hf := Varint.form_write (UInt64.ofNat (joinKey n w))
  rwa [hn] at hf

/-- Fields one behind the other are a message. -/
theorem messageForm_write {fs : List Field} (h : ∀ f ∈ fs, f.Writable) : MessageForm fs (fs.flatMap Field.write) := by
  induction fs with
  | nil => exact .nil
  | cons f fs ih =>
    have hrest := ih fun f' hf' => h f' (List.mem_cons_of_mem f hf')
    have hf := h f List.mem_cons_self
    have hkey (w : WireType) := keyForm_write w hf.nonzero hf.small
    obtain ⟨n, v⟩ := f
    rw [List.flatMap_cons]
    cases v with
    | varint v =>
      refine .plain ?_ hrest
      simpa [Field.write, Field.close, Value.write, Value.wireType] using
        PlainForm.varint (hkey .varint) (Varint.form_write v)
    | fixed64 v =>
      refine .plain ?_ hrest
      simpa [Field.write, Field.close, Value.write, Value.wireType] using
        PlainForm.fixed64 (hkey .fixed64) (length_writeFixed 8 v.toNat)
    | fixed32 v =>
      refine .plain ?_ hrest
      simpa [Field.write, Field.close, Value.write, Value.wireType] using
        PlainForm.fixed32 (hkey .fixed32) (length_writeFixed 4 v.toNat)
    | bytes payload =>
      have hn : (UInt64.ofNat payload.length).toNat = payload.length :=
        UInt64.toNat_ofNat_of_lt' (hf.sized payload rfl)
      have hl := Varint.form_write (UInt64.ofNat payload.length)
      rw [hn] at hl
      refine .plain ?_ hrest
      simpa [Field.write, Field.close, Value.write, Value.wireType] using
        PlainForm.bytes (hkey .lengthDelimited) hl hn
    | group body =>
      obtain ⟨inner, hb⟩ := hf.closed body rfl
      simpa [Field.write, Field.close, Value.write, Value.wireType, List.append_assoc] using
        MessageForm.group (hkey .startGroup) hb (hkey .endGroup) hrest

/-- What is written is read back. -/
theorem fields_write {fs : List Field} (h : ∀ f ∈ fs, f.Writable) : fields (fs.flatMap Field.write) = ⟨fs, none⟩ :=
  fields_eq_of_form (messageForm_write h)

/-! ## Packed payloads -/

namespace Packing

def wireType : Packing → WireType
  | varint => .varint
  | fixed32 => .fixed32
  | fixed64 => .fixed64

variable {p : Packing} {v : Value} {vs : List Value}

theorem ValueForm.wireType_eq {bytes : List UInt8} (h : p.ValueForm v bytes) : v.wireType = p.wireType := by
  cases h <;> rfl

theorem wireType_of_mem_values {payload : List UInt8} (h : v ∈ (p.values payload).values) :
    v.wireType = p.wireType := by
  obtain ⟨_, _, hr⟩ := p.reader.exists_read_of_mem h
  obtain ⟨_, hv, -⟩ := readValue_eq_ok_iff.1 hr
  exact hv.wireType_eq

theorem valueForm_write (h : v.wireType = p.wireType) : p.ValueForm v v.write := by
  cases v with
  | varint v =>
    cases p <;> cases h
    exact .varint (Varint.form_write v)
  | fixed64 v =>
    cases p <;> cases h
    have hform := ValueForm.fixed64 (length_writeFixed 8 v.toNat)
    rwa [littleEndian_writeFixed_uint64] at hform
  | fixed32 v =>
    cases p <;> cases h
    have hform := ValueForm.fixed32 (length_writeFixed 4 v.toNat)
    rwa [littleEndian_writeFixed_uint32] at hform
  | bytes | group => cases p <;> cases h

theorem payloadForm_write (h : ∀ v ∈ vs, v.wireType = p.wireType) : p.PayloadForm vs (vs.flatMap Value.write) := by
  induction vs with
  | nil => exact .nil
  | cons v vs ih =>
    rw [List.flatMap_cons]
    exact .cons (valueForm_write (h v List.mem_cons_self)) (ih fun v' hv' => h v' (List.mem_cons_of_mem v hv'))

theorem values_write (h : ∀ v ∈ vs, v.wireType = p.wireType) : p.values (vs.flatMap Value.write) = ⟨vs, none⟩ := by
  have happend := values_append_of_form (payloadForm_write h) []
  simpa [values] using happend

end Packing

end TraceTables.Wire
