import TraceTables.Proofs.Wire.Items
import TraceTables.Wire.Packed

/-! The grammar of packed payloads: forms of values, one behind the other. A reading takes the values off the front as
long as there is a form, so nothing of the payload is lost but what is no form at the end. -/

namespace TraceTables.Wire

namespace Packing

/-- The bytes are a value. Varints may be over-long. -/
inductive ValueForm : Packing → Value → List UInt8 → Prop where
  | varint {v : UInt64} {bytes : List UInt8} : Varint.Form v bytes → ValueForm .varint (.varint v) bytes
  | fixed32 {bytes : List UInt8} :
      bytes.length = 4 → ValueForm .fixed32 (.fixed32 (UInt32.ofNat (littleEndian bytes))) bytes
  | fixed64 {bytes : List UInt8} :
      bytes.length = 8 → ValueForm .fixed64 (.fixed64 (UInt64.ofNat (littleEndian bytes))) bytes

/-- The bytes are the values, one behind the other. -/
inductive PayloadForm (p : Packing) : List Value → List UInt8 → Prop where
  | nil : PayloadForm p [] []
  | cons {v : Value} {vs : List Value} {bytes rest : List UInt8} :
      p.ValueForm v bytes → PayloadForm p vs rest → PayloadForm p (v :: vs) (bytes ++ rest)

/-- The bytes of each value, if all have the same number. -/
def width? : Packing → Option Nat
  | varint => none
  | fixed32 => some 4
  | fixed64 => some 8

variable {p : Packing} {v : Value} {vs : List Value} {w : Nat} {bytes front rest : List UInt8}

theorem readValue_eq_ok_iff : p.readValue bytes = .ok (v, rest) ↔ ∃ q, p.ValueForm v q ∧ bytes = q ++ rest := by
  constructor
  · intro h
    cases p with
    | varint =>
      obtain ⟨⟨n, r⟩, hr, he⟩ := map_eq_ok.1 h
      cases he
      obtain ⟨q, hq, hb⟩ := Varint.read_eq_ok_iff.1 hr
      exact ⟨q, .varint hq, hb⟩
    | fixed32 =>
      obtain ⟨⟨n, r⟩, hr, he⟩ := map_eq_ok.1 h
      cases he
      obtain ⟨q, hl, rfl, hb⟩ := readFixed_eq_ok_iff.1 hr
      exact ⟨q, .fixed32 hl, hb⟩
    | fixed64 =>
      obtain ⟨⟨n, r⟩, hr, he⟩ := map_eq_ok.1 h
      cases he
      obtain ⟨q, hl, rfl, hb⟩ := readFixed_eq_ok_iff.1 hr
      exact ⟨q, .fixed64 hl, hb⟩
  · intro ⟨q, hq, hb⟩
    cases hq with
    | varint hq => exact map_eq_ok.2 ⟨_, Varint.read_eq_ok_iff.2 ⟨q, hq, hb⟩, rfl⟩
    | fixed32 hl => exact map_eq_ok.2 ⟨_, readFixed_eq_ok_iff.2 ⟨q, hl, rfl, hb⟩, rfl⟩
    | fixed64 hl => exact map_eq_ok.2 ⟨_, readFixed_eq_ok_iff.2 ⟨q, hl, rfl, hb⟩, rfl⟩

/-! ## Values at the front -/

/-- Values at the front are read whatever follows, and what follows is read as if it stood alone. -/
theorem values_append_of_form (h : p.PayloadForm vs front) (rest : List UInt8) :
    p.values (front ++ rest) = ⟨vs ++ (p.values rest).values, (p.values rest).fault?⟩ := by
  induction h with
  | nil => rfl
  | @cons v vs bytes front hv _ ih =>
    rw [List.append_assoc]
    exact p.reader.all_eq_cons_iff.2 ⟨front ++ rest, readValue_eq_ok_iff.2 ⟨bytes, hv, rfl⟩, ih⟩

/-- The values that are read have a form at the front, and behind them nothing can be read. -/
theorem exists_form (p : Packing) (payload : List UInt8) :
    ∃ front rest, payload = front ++ rest ∧ p.PayloadForm (p.values payload).values front ∧
      p.values rest = ⟨[], (p.values payload).fault?⟩ := by
  unfold values
  induction payload using p.reader.all_induction with
  | nil =>
    rw [p.reader.all_nil]
    exact ⟨[], [], rfl, .nil, p.reader.all_nil⟩
  | @fault bytes e hb hr =>
    rw [p.reader.all_of_error hb hr]
    exact ⟨[], bytes, rfl, .nil, p.reader.all_of_error hb hr⟩
  | value hr ih =>
    obtain ⟨front, rest, rfl, hfront, hrest⟩ := ih
    obtain ⟨bytes, hv, rfl⟩ := readValue_eq_ok_iff.1 hr
    rw [p.reader.all_of_ok hr]
    exact ⟨bytes ++ front, rest, by simp, .cons hv hfront, hrest⟩

/-- Nothing can be read exactly if no front is a value. -/
theorem values_eq_nil_iff : (p.values bytes).values = [] ↔ ∀ v q, q <+: bytes → ¬ p.ValueForm v q := by
  constructor
  · intro h v q ⟨rest, hq⟩ hv
    have hr : p.readValue bytes = .ok (v, rest) := readValue_eq_ok_iff.2 ⟨q, hv, hq.symm⟩
    rw [values, p.reader.all_of_ok hr] at h
    cases h
  · intro h
    match he : p.values bytes with
    | ⟨[], _⟩ => rfl
    | ⟨v :: vs, _⟩ =>
      obtain ⟨rest, hr, -⟩ := p.reader.all_eq_cons_iff.1 he
      obtain ⟨q, hv, hb⟩ := readValue_eq_ok_iff.1 hr
      exact absurd hv (h v q ⟨rest, hb.symm⟩)

/-! ## Values of a fixed size -/

theorem ValueForm.length_eq (hw : p.width? = some w) (h : p.ValueForm v bytes) : bytes.length = w := by
  cases h with
  | varint => cases hw
  | fixed32 hl | fixed64 hl =>
    cases hw
    exact hl

theorem PayloadForm.length_eq (hw : p.width? = some w) (h : p.PayloadForm vs bytes) :
    bytes.length = vs.length * w := by
  induction h with
  | nil => exact (Nat.zero_mul w).symm
  | cons hv _ ih => rw [List.length_append, hv.length_eq hw, ih, List.length_cons, Nat.succ_mul, Nat.add_comm]

theorem width_pos (hw : p.width? = some w) : 0 < w := by
  cases p with
  | varint => cases hw
  | fixed32 | fixed64 =>
    cases hw
    decide

theorem readValue_eq_error_iff (hw : p.width? = some w) {e : Fault} :
    p.readValue bytes = .error e ↔ bytes.length < w ∧ e = .truncated w bytes.length := by
  cases p with
  | varint => cases hw
  | fixed32 | fixed64 =>
    cases hw
    simp only [readValue, readFixed, map_eq_error, take_eq_error_iff]

/-- What is left of values of a fixed size is less than one. -/
theorem length_rest (hw : p.width? = some w) {fault? : Option Fault} (h : p.values rest = ⟨[], fault?⟩) :
    rest.length < w ∧ fault? = if rest.length = 0 then none else some (.truncated w rest.length) := by
  rcases p.reader.all_eq_fault_iff.1 h with ⟨rfl, hf⟩ | ⟨hne, e, he, hf⟩
  · exact ⟨width_pos hw, hf⟩
  · obtain ⟨hlt, rfl⟩ := (readValue_eq_error_iff hw).1 he
    rw [if_neg (by simpa using hne)]
    exact ⟨hlt, hf⟩

/-- A payload is read by its items, one step after the other: values, and then a fault at most. It is the values' forms
one behind the other and a rest of which no front is a form. That tells the values apart from all others. The rest is
empty if and only if there is no fault. If all values have one size, the rest is what is left by division, and the fault
says so. A payload without a fault can have another one put behind it, whose values come behind its own. -/
theorem values_split_payload (p : Packing) (payload : List UInt8) :
    let r := p.values payload
    (∀ is, p.reader.Yields (.start payload) is ↔ is = r.values.map .ok ++ (r.fault?.map .error).toList) ∧
      (∃ front rest, payload = front ++ rest ∧ p.PayloadForm r.values front ∧ (rest = [] ↔ r.fault? = none) ∧
        ∀ v q, q <+: rest → ¬ p.ValueForm v q) ∧
      (∀ vs front rest, payload = front ++ rest → p.PayloadForm vs front →
        (∀ v q, q <+: rest → ¬ p.ValueForm v q) → vs = r.values) ∧
      (∀ w, p.width? = some w → r.values.length = payload.length / w ∧
        r.fault? = if payload.length % w = 0 then none else some (.truncated w (payload.length % w))) ∧
      (r.fault? = none → ∀ more,
        p.values (payload ++ more) = ⟨r.values ++ (p.values more).values, (p.values more).fault?⟩) := by
  intro r
  obtain ⟨front, rest, hsplit, hfront, hrest⟩ := p.exists_form payload
  have hends : rest = [] ↔ r.fault? = none := by
    rcases p.reader.all_eq_fault_iff.1 hrest with ⟨hb, hf⟩ | ⟨hb, e, -, hf⟩
    · exact iff_of_true hb hf
    · exact iff_of_false hb (by simp [r, hf])
  refine ⟨fun is => Reader.yields_iff, ?_, ?_, ?_, ?_⟩
  · exact ⟨front, rest, hsplit, hfront, hends, values_eq_nil_iff.1 (by rw [hrest])⟩
  · intro vs front' rest' hsplit' hfront' hno
    have hvalues : r.values = vs ++ (p.values rest').values := by
      simp only [r, hsplit', values_append_of_form hfront']
    rw [hvalues, values_eq_nil_iff.2 hno, List.append_nil]
  · intro w hw
    obtain ⟨hlt, hf⟩ := length_rest hw hrest
    have hlen : payload.length = rest.length + r.values.length * w := by
      rw [hsplit, List.length_append, hfront.length_eq hw, Nat.add_comm]
    have hdiv : payload.length / w = r.values.length := by
      rw [hlen, Nat.add_mul_div_right _ _ (width_pos hw), Nat.div_eq_of_lt hlt, Nat.zero_add]
    have hmod : payload.length % w = rest.length := by rw [hlen, Nat.add_mul_mod_self_right, Nat.mod_eq_of_lt hlt]
    rw [hdiv, hmod]
    exact ⟨rfl, hf⟩
  · intro hnone more
    rw [hends.2 hnone, List.append_nil] at hsplit
    subst hsplit
    exact values_append_of_form hfront more

/-- An over-long varint, and one that ends too early. -/
example : Packing.varint.values [0x80, 0x00, 0xAC, 0x02, 0x80] = ⟨[.varint 0, .varint 300], some .badVarint⟩ := by cbv

end Packing

end TraceTables.Wire
