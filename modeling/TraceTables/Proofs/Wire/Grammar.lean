import TraceTables.Proofs.Wire.Varint
import TraceTables.Wire.Message

/-! The grammar of messages. The reader follows it in one pass with a list of the open groups; here a group's body is
a message of its own. The bytes from inside a group to the end of the outermost one are messages with the end tags
between them, which `Enclosed` says, and it is what the pass keeps true. -/

namespace TraceTables.Wire

/-- The bytes are a key: a varint of 32 bits that holds a number, which is not zero, and a wire type. -/
def KeyForm (number : Nat) (w : WireType) (bytes : List UInt8) : Prop :=
  ∃ key : UInt64, Varint.Form key bytes ∧ key.toNat < 2 ^ 32 ∧ key.toNat = joinKey number w ∧ number ≠ 0

/-- The bytes are a field that is no group. -/
inductive PlainForm : Field → List UInt8 → Prop where
  | varint {n : Nat} {v : UInt64} {key bytes : List UInt8} :
      KeyForm n .varint key → Varint.Form v bytes → PlainForm ⟨n, .varint v⟩ (key ++ bytes)
  | fixed64 {n : Nat} {key bytes : List UInt8} :
      KeyForm n .fixed64 key → bytes.length = 8 →
        PlainForm ⟨n, .fixed64 (UInt64.ofNat (littleEndian bytes))⟩ (key ++ bytes)
  | fixed32 {n : Nat} {key bytes : List UInt8} :
      KeyForm n .fixed32 key → bytes.length = 4 →
        PlainForm ⟨n, .fixed32 (UInt32.ofNat (littleEndian bytes))⟩ (key ++ bytes)
  | bytes {n : Nat} {size : UInt64} {key length payload : List UInt8} :
      KeyForm n .lengthDelimited key → Varint.Form size length → size.toNat = payload.length →
        PlainForm ⟨n, .bytes payload⟩ (key ++ (length ++ payload))

/-- The bytes are the fields, one behind the other. -/
inductive MessageForm : List Field → List UInt8 → Prop where
  | nil : MessageForm [] []
  | plain {f : Field} {fs : List Field} {bytes rest : List UInt8} :
      PlainForm f bytes → MessageForm fs rest → MessageForm (f :: fs) (bytes ++ rest)
  | group {n : Nat} {inner fs : List Field} {start body tag rest : List UInt8} :
      KeyForm n .startGroup start → MessageForm inner body → KeyForm n .endGroup tag → MessageForm fs rest →
        MessageForm (⟨n, .group body⟩ :: fs) (start ++ (body ++ (tag ++ rest)))

/-! ## Keys and tokens -/

theorem splitKey_eq_ok_iff {key n : Nat} {w : WireType} :
    splitKey key = .ok (n, w) ↔ key < 2 ^ 32 ∧ key = joinKey n w ∧ n ≠ 0 := by
  refine ⟨?_, ?_⟩
  · intro h
    unfold splitKey at h
    split at h
    · cases h
    · rename_i hk
      split at h
      · cases h
      · rename_i w' hw
        split at h
        · cases h
        · rename_i h0
          cases h
          refine ⟨by omega, ?_, h0⟩
          have hc : w.code = key % 8 := by
            have hm : key % 8 < 8 := Nat.mod_lt _ (by omega)
            generalize key % 8 = c at hw hm
            unfold WireType.ofCode? at hw
            split at hw <;> cases hw <;> rfl
          unfold joinKey
          omega
  · rintro ⟨hk, rfl, h0⟩
    exact splitKey_joinKey w h0 (by unfold joinKey at hk; omega)

theorem readKey_eq_ok_iff {n : Nat} {w : WireType} {bytes rest : List UInt8} :
    readKey bytes = .ok ((n, w), rest) ↔ ∃ p, KeyForm n w p ∧ bytes = p ++ rest := by
  unfold readKey
  refine ⟨?_, ?_⟩
  · intro h
    split at h
    · cases h
    · rename_i key r hr
      obtain ⟨k, hk, he⟩ := map_eq_ok.1 h
      cases he
      obtain ⟨p, hp, rfl⟩ := Varint.read_eq_ok_iff.1 hr
      exact ⟨p, ⟨key, hp, splitKey_eq_ok_iff.1 hk⟩, rfl⟩
  · rintro ⟨p, ⟨key, hp, hk⟩, rfl⟩
    have hr : Varint.read (p ++ rest) = .ok (key, rest) := Varint.read_eq_ok_iff.2 ⟨p, hp, rfl⟩
    rw [hr]
    simp only
    rw [splitKey_eq_ok_iff.2 hk]
    rfl

theorem KeyForm.ne_nil {n : Nat} {w : WireType} {bytes : List UInt8} (h : KeyForm n w bytes) : bytes ≠ [] := by
  obtain ⟨_, hv, -⟩ := h
  exact hv.run.ne_nil

theorem PlainForm.ne_nil {f : Field} {bytes : List UInt8} (h : PlainForm f bytes) : bytes ≠ [] := by
  cases h with
  | varint hk _ | fixed64 hk _ | fixed32 hk _ | bytes hk _ _ => simp [hk.ne_nil]

theorem take_length_append (a rest : List UInt8) : take a.length (a ++ rest) = .ok (a, rest) := by
  unfold take
  rw [if_neg (by simp), List.take_left, List.drop_left]

theorem readFixed_eq_ok_iff {n v : Nat} {bytes rest : List UInt8} :
    readFixed n bytes = .ok (v, rest) ↔ ∃ p, p.length = n ∧ v = littleEndian p ∧ bytes = p ++ rest := by
  unfold readFixed
  rw [map_eq_ok]
  refine ⟨?_, ?_⟩
  · rintro ⟨⟨p, r⟩, hr, he⟩
    cases he
    obtain ⟨rfl, hl⟩ := take_eq_ok hr
    exact ⟨p, hl, rfl, rfl⟩
  · rintro ⟨p, rfl, rfl, rfl⟩
    exact ⟨(p, rest), take_length_append p rest, rfl⟩

theorem readBytes_eq_ok_iff {payload bytes rest : List UInt8} :
    readBytes bytes = .ok (payload, rest) ↔
      ∃ size p, Varint.Form size p ∧ size.toNat = payload.length ∧ bytes = p ++ (payload ++ rest) := by
  unfold readBytes
  refine ⟨?_, ?_⟩
  · intro h
    split at h
    · cases h
    · rename_i size r hr
      obtain ⟨p, hp, rfl⟩ := Varint.read_eq_ok_iff.1 hr
      obtain ⟨rfl, hl⟩ := take_eq_ok h
      exact ⟨size, p, hp, hl.symm, rfl⟩
  · rintro ⟨size, p, hp, hl, rfl⟩
    have hr : Varint.read (p ++ (payload ++ rest)) = .ok (size, payload ++ rest) :=
      Varint.read_eq_ok_iff.2 ⟨p, hp, rfl⟩
    rw [hr]
    simp only
    rw [hl, take_length_append]

namespace Token

theorem read_eq_ok_iff {t : Token} {bytes rest : List UInt8} :
    read bytes = .ok (t, rest) ↔
      ∃ n w p r, KeyForm n w p ∧ bytes = p ++ r ∧ readToken n w r = .ok (t, rest) := by
  unfold read
  refine ⟨?_, ?_⟩
  · intro h
    split at h
    · cases h
    · rename_i n w r hk
      obtain ⟨p, hp, rfl⟩ := readKey_eq_ok_iff.1 hk
      exact ⟨n, w, p, r, hp, rfl, h⟩
  · rintro ⟨n, w, p, r, hp, rfl, h⟩
    have hk : readKey (p ++ r) = .ok ((n, w), r) := readKey_eq_ok_iff.2 ⟨p, hp, rfl⟩
    rw [hk]
    exact h

theorem plainForm_of_read {f : Field} {bytes rest : List UInt8} (h : read bytes = .ok (.field f, rest)) :
    ∃ p, PlainForm f p ∧ bytes = p ++ rest := by
  obtain ⟨n, w, k, r, hk, rfl, ht⟩ := read_eq_ok_iff.1 h
  cases w with
  | varint =>
    obtain ⟨⟨v, r'⟩, hr, he⟩ := map_eq_ok.1 ht
    cases he
    obtain ⟨p, hp, rfl⟩ := Varint.read_eq_ok_iff.1 hr
    exact ⟨k ++ p, .varint hk hp, (List.append_assoc ..).symm⟩
  | fixed64 =>
    obtain ⟨⟨v, r'⟩, hr, he⟩ := map_eq_ok.1 ht
    cases he
    obtain ⟨p, hl, rfl, rfl⟩ := readFixed_eq_ok_iff.1 hr
    exact ⟨k ++ p, .fixed64 hk hl, (List.append_assoc ..).symm⟩
  | fixed32 =>
    obtain ⟨⟨v, r'⟩, hr, he⟩ := map_eq_ok.1 ht
    cases he
    obtain ⟨p, hl, rfl, rfl⟩ := readFixed_eq_ok_iff.1 hr
    exact ⟨k ++ p, .fixed32 hk hl, (List.append_assoc ..).symm⟩
  | lengthDelimited =>
    obtain ⟨⟨payload, r'⟩, hr, he⟩ := map_eq_ok.1 ht
    cases he
    obtain ⟨size, p, hp, hl, rfl⟩ := readBytes_eq_ok_iff.1 hr
    exact ⟨k ++ (p ++ payload), .bytes hk hp hl, by simp [List.append_assoc]⟩
  | startGroup | endGroup => cases ht

theorem read_of_plainForm {f : Field} {p : List UInt8} (rest : List UInt8) (h : PlainForm f p) :
    read (p ++ rest) = .ok (.field f, rest) := by
  cases h with
  | @varint n v key bytes hk hv =>
    refine read_eq_ok_iff.2 ⟨n, .varint, key, bytes ++ rest, hk, List.append_assoc .., ?_⟩
    exact map_eq_ok.2 ⟨(v, rest), Varint.read_eq_ok_iff.2 ⟨bytes, hv, rfl⟩, rfl⟩
  | @fixed64 n key bytes hk hl =>
    refine read_eq_ok_iff.2 ⟨n, .fixed64, key, bytes ++ rest, hk, List.append_assoc .., ?_⟩
    exact map_eq_ok.2 ⟨(littleEndian bytes, rest), readFixed_eq_ok_iff.2 ⟨bytes, hl, rfl, rfl⟩, rfl⟩
  | @fixed32 n key bytes hk hl =>
    refine read_eq_ok_iff.2 ⟨n, .fixed32, key, bytes ++ rest, hk, List.append_assoc .., ?_⟩
    exact map_eq_ok.2 ⟨(littleEndian bytes, rest), readFixed_eq_ok_iff.2 ⟨bytes, hl, rfl, rfl⟩, rfl⟩
  | @bytes n size key length payload hk hv hl =>
    refine read_eq_ok_iff.2 ⟨n, .lengthDelimited, key, length ++ (payload ++ rest), hk, by simp, ?_⟩
    exact map_eq_ok.2 ⟨(payload, rest), readBytes_eq_ok_iff.2 ⟨size, length, hv, hl, rfl⟩, rfl⟩

theorem read_groupStart_iff {n : Nat} {bytes rest : List UInt8} :
    read bytes = .ok (.groupStart n, rest) ↔ ∃ p, KeyForm n .startGroup p ∧ bytes = p ++ rest := by
  rw [read_eq_ok_iff]
  refine ⟨?_, ?_⟩
  · rintro ⟨n', w, p, r, hk, rfl, ht⟩
    cases w with
    | startGroup =>
      cases ht
      exact ⟨p, hk, rfl⟩
    | endGroup => cases ht
    | varint | fixed64 | fixed32 | lengthDelimited =>
      obtain ⟨_, -, he⟩ := map_eq_ok.1 ht
      cases he
  · rintro ⟨p, hk, rfl⟩
    exact ⟨n, .startGroup, p, rest, hk, rfl, rfl⟩

theorem read_groupEnd_iff {n : Nat} {bytes rest : List UInt8} :
    read bytes = .ok (.groupEnd n, rest) ↔ ∃ p, KeyForm n .endGroup p ∧ bytes = p ++ rest := by
  rw [read_eq_ok_iff]
  refine ⟨?_, ?_⟩
  · rintro ⟨n', w, p, r, hk, rfl, ht⟩
    cases w with
    | endGroup =>
      cases ht
      exact ⟨p, hk, rfl⟩
    | startGroup => cases ht
    | varint | fixed64 | fixed32 | lengthDelimited =>
      obtain ⟨_, -, he⟩ := map_eq_ok.1 ht
      cases he
  · rintro ⟨p, hk, rfl⟩
    exact ⟨n, .endGroup, p, rest, hk, rfl, rfl⟩

end Token

/-! ## Groups -/

/-- Bytes inside the group `n`, which the groups `around` enclose, up to the end tag of the outermost one. -/
inductive Enclosed : Nat → List Nat → List UInt8 → List UInt8 → Prop where
  | last {n : Nat} {fs : List Field} {body tag : List UInt8} :
      MessageForm fs body → KeyForm n .endGroup tag → Enclosed n [] body tag
  | next {n outer : Nat} {around : List Nat} {fs : List Field} {body close rest tag : List UInt8} :
      MessageForm fs body → KeyForm n .endGroup close → Enclosed outer around rest tag →
        Enclosed n (outer :: around) (body ++ (close ++ rest)) tag

theorem Enclosed.plain {n : Nat} {around : List Nat} {f : Field} {p bytes tag : List UInt8} (hf : PlainForm f p)
    (h : Enclosed n around bytes tag) : Enclosed n around (p ++ bytes) tag := by
  cases h with
  | last hb ht => exact .last (.plain hf hb) ht
  | next hb hc hr =>
    rw [← List.append_assoc]
    exact .next (.plain hf hb) hc hr

/-- A start tag in front moves the innermost group one level out: what was its body is a field there. -/
theorem Enclosed.group {m n : Nat} {around : List Nat} {start bytes tag : List UInt8}
    (hs : KeyForm m .startGroup start) (h : Enclosed m (n :: around) bytes tag) :
    Enclosed n around (start ++ bytes) tag := by
  cases h with
  | @next _ _ _ _ body close rest _ hb hc hr =>
    have hcut {fs' : List Field} {body' : List UInt8} (hb' : MessageForm fs' body') :
        MessageForm (⟨m, .group body⟩ :: fs') (start ++ (body ++ (close ++ body'))) := .group hs hb hc hb'
    cases hr with
    | last hb' ht => exact .last (hcut hb') ht
    | next hb' hc' hr' => simpa [List.append_assoc] using Enclosed.next (hcut hb') hc' hr'

/-! ### One token of the pass -/

section Pass

variable {outermost inner : Nat} {around : List Nat} {bytes rest : List UInt8}

theorem isEmpty_of_read {t : Token} (h : Token.read bytes = .ok (t, rest)) : ¬ bytes.isEmpty = true := by
  have hl := Token.length_read h
  cases bytes with
  | nil => simp at hl
  | cons b bs => simp

theorem findGroupEnd_field {f : Field} (h : Token.read bytes = .ok (.field f, rest)) :
    findGroupEnd outermost inner around bytes = findGroupEnd outermost inner around rest := by
  rw [findGroupEnd, if_neg (isEmpty_of_read h)]
  split <;> rename_i h' <;> rw [h] at h' <;> cases h'
  rfl

theorem findGroupEnd_start {n : Nat} (h : Token.read bytes = .ok (.groupStart n, rest)) :
    findGroupEnd outermost inner around bytes = findGroupEnd outermost n (inner :: around) rest := by
  rw [findGroupEnd, if_neg (isEmpty_of_read h)]
  split <;> rename_i h' <;> rw [h] at h' <;> cases h'
  rfl

theorem findGroupEnd_next {next : Nat} (h : Token.read bytes = .ok (.groupEnd inner, rest)) :
    findGroupEnd outermost inner (next :: around) bytes = findGroupEnd outermost next around rest := by
  rw [findGroupEnd, if_neg (isEmpty_of_read h)]
  split <;> rename_i h' <;> rw [h] at h' <;> cases h'
  simp

theorem findGroupEnd_last (h : Token.read bytes = .ok (.groupEnd inner, rest)) :
    findGroupEnd outermost inner [] bytes = .ok (bytes, rest) := by
  rw [findGroupEnd, if_neg (isEmpty_of_read h)]
  split <;> rename_i h' <;> rw [h] at h' <;> cases h'
  simp

end Pass

theorem findGroupEnd_sound {outermost inner : Nat} {around : List Nat} {bytes last rest : List UInt8}
    (h : findGroupEnd outermost inner around bytes = .ok (last, rest)) :
    ∃ p tag, Enclosed inner around p tag ∧ bytes = p ++ last ∧ last = tag ++ rest := by
  fun_induction findGroupEnd outermost inner around bytes with
  | case1 => cases h
  | case2 => cases h
  | case3 inner around bytes _ f r hr ih =>
    obtain ⟨p, tag, hp, rfl, he⟩ := ih h
    obtain ⟨q, hq, rfl⟩ := Token.plainForm_of_read hr
    exact ⟨q ++ p, tag, hp.plain hq, by simp, he⟩
  | case4 inner around bytes _ n r hr ih =>
    obtain ⟨p, tag, hp, rfl, he⟩ := ih h
    obtain ⟨q, hq, rfl⟩ := Token.read_groupStart_iff.1 hr
    exact ⟨q ++ p, tag, hp.group hq, by simp, he⟩
  | case5 => cases h
  | case6 inner bytes _ n r hr hn =>
    cases h
    rw [Decidable.not_not.1 hn] at hr
    obtain ⟨q, hq, rfl⟩ := Token.read_groupEnd_iff.1 hr
    exact ⟨[], q, .last .nil hq, rfl, rfl⟩
  | case7 inner bytes _ n r hr hn next around ih =>
    rw [Decidable.not_not.1 hn] at hr
    obtain ⟨p, tag, hp, rfl, he⟩ := ih h
    obtain ⟨q, hq, rfl⟩ := Token.read_groupEnd_iff.1 hr
    exact ⟨q ++ p, tag, .next .nil hq hp, by simp, he⟩

/-- The pass over a whole message leaves the open groups as they are. -/
theorem findGroupEnd_message {fs : List Field} {body : List UInt8} (h : MessageForm fs body) :
    ∀ (outermost inner : Nat) (around : List Nat) (rest : List UInt8),
      findGroupEnd outermost inner around (body ++ rest) = findGroupEnd outermost inner around rest := by
  induction h with
  | nil => intro _ _ _ _; rfl
  | plain hf _ ih =>
    intro outermost inner around rest
    rw [List.append_assoc, findGroupEnd_field (Token.read_of_plainForm _ hf), ih]
  | @group n _ _ start body tag bytes hs _ ht _ ihb ihr =>
    intro outermost inner around rest
    have hstart : Token.read (start ++ (body ++ (tag ++ (bytes ++ rest)))) =
        .ok (.groupStart n, body ++ (tag ++ (bytes ++ rest))) := Token.read_groupStart_iff.2 ⟨start, hs, rfl⟩
    have hend : Token.read (tag ++ (bytes ++ rest)) = .ok (.groupEnd n, bytes ++ rest) :=
      Token.read_groupEnd_iff.2 ⟨tag, ht, rfl⟩
    simp only [List.append_assoc]
    rw [findGroupEnd_start hstart, ihb, findGroupEnd_next hend, ihr]

theorem readGroup_eq_ok_iff {n : Nat} {bytes body rest : List UInt8} :
    readGroup n bytes = .ok (body, rest) ↔
      ∃ fs tag, MessageForm fs body ∧ KeyForm n .endGroup tag ∧ bytes = body ++ (tag ++ rest) := by
  unfold readGroup
  rw [map_eq_ok]
  refine ⟨?_, ?_⟩
  · rintro ⟨⟨last, r⟩, hr, he⟩
    cases he
    obtain ⟨p, tag, hp, rfl, rfl⟩ := findGroupEnd_sound hr
    cases hp with
    | @last _ fs _ _ hb ht =>
      refine ⟨fs, tag, ?_, ht, ?_⟩ <;> simp [hb]
  · rintro ⟨fs, tag, hb, ht, rfl⟩
    have hend : Token.read (tag ++ rest) = .ok (.groupEnd n, rest) := Token.read_groupEnd_iff.2 ⟨tag, ht, rfl⟩
    refine ⟨(tag ++ rest, rest), ?_, by simp⟩
    rw [findGroupEnd_message hb, findGroupEnd_last hend]

/-! ## Messages -/

theorem readField_eq_ok_iff {f : Field} {bytes rest : List UInt8} :
    readField bytes = .ok (f, rest) ↔
      (∃ p, PlainForm f p ∧ bytes = p ++ rest) ∨
        ∃ n inner start body tag, KeyForm n .startGroup start ∧ MessageForm inner body ∧ KeyForm n .endGroup tag ∧
          f = ⟨n, .group body⟩ ∧ bytes = start ++ (body ++ (tag ++ rest)) := by
  refine ⟨?_, ?_⟩
  · intro h
    unfold readField at h
    split at h
    · cases h
    · rename_i hr
      cases h
      exact Or.inl (Token.plainForm_of_read hr)
    · rename_i n r hr
      obtain ⟨⟨body, r'⟩, hg, he⟩ := map_eq_ok.1 h
      cases he
      obtain ⟨start, hs, rfl⟩ := Token.read_groupStart_iff.1 hr
      obtain ⟨inner, tag, hb, ht, rfl⟩ := readGroup_eq_ok_iff.1 hg
      exact Or.inr ⟨n, inner, start, body, tag, hs, hb, ht, rfl, rfl⟩
    · cases h
  · rintro (⟨p, hp, rfl⟩ | ⟨n, inner, start, body, tag, hs, hb, ht, rfl, rfl⟩)
    · simp [readField, Token.read_of_plainForm rest hp]
    · have hr : Token.read (start ++ (body ++ (tag ++ rest))) = .ok (.groupStart n, body ++ (tag ++ rest)) :=
        Token.read_groupStart_iff.2 ⟨start, hs, rfl⟩
      have hg : readGroup n (body ++ (tag ++ rest)) = .ok (body, rest) :=
        readGroup_eq_ok_iff.2 ⟨inner, tag, hb, ht, rfl⟩
      simp [readField, hr, hg, Except.map]

/-- The fields at the front are read whatever follows, and what follows is read as if it stood alone. -/
theorem fields_append_of_form {fs : List Field} {bytes : List UInt8} (h : MessageForm fs bytes) (rest : List UInt8) :
    fields (bytes ++ rest) = ⟨fs ++ (fields rest).values, (fields rest).fault?⟩ := by
  induction h with
  | nil => rfl
  | @plain f _ bytes bytes' hf _ ih =>
    rw [List.append_assoc]
    exact fieldReader.all_eq_cons_iff.2 ⟨bytes' ++ rest, readField_eq_ok_iff.2 (Or.inl ⟨bytes, hf, rfl⟩), ih⟩
  | @group n inner _ start body tag bytes hs hb ht _ _ ih =>
    simp only [List.append_assoc]
    exact fieldReader.all_eq_cons_iff.2
      ⟨bytes ++ rest, readField_eq_ok_iff.2 (Or.inr ⟨n, inner, start, body, tag, hs, hb, ht, rfl, rfl⟩), ih⟩

theorem fields_eq_of_form {fs : List Field} {bytes : List UInt8} (h : MessageForm fs bytes) :
    fields bytes = ⟨fs, none⟩ := by
  have hnil : fields [] = ⟨[], none⟩ := fieldReader.all_nil
  have happend := fields_append_of_form h []
  rwa [hnil, List.append_nil, List.append_nil] at happend

theorem form_of_fields_eq {fs : List Field} {bytes : List UInt8} (h : fields bytes = ⟨fs, none⟩) :
    MessageForm fs bytes := by
  induction fs generalizing bytes with
  | nil =>
    rw [fieldReader.all_eq_nil_iff.1 h]
    exact .nil
  | cons f fs ih =>
    obtain ⟨rest, hr, hs⟩ := fieldReader.all_eq_cons_iff.1 h
    rcases readField_eq_ok_iff.1 hr with ⟨p, hp, rfl⟩ | ⟨n, inner, start, body, tag, hst, hb, ht, rfl, rfl⟩
    · exact .plain hp (ih hs)
    · exact .group hst hb ht (ih hs)

/-- The body of a group that was read is a message, also when the reading stops behind it. -/
theorem form_of_group_mem {n : Nat} {body bytes : List UInt8} (h : ⟨n, .group body⟩ ∈ (fields bytes).values) :
    ∃ inner, MessageForm inner body := by
  obtain ⟨front, rest, hr⟩ := fieldReader.exists_read_of_mem h
  rcases readField_eq_ok_iff.1 hr with ⟨p, hp, -⟩ | ⟨_, inner, _, _, _, _, hb, _, he, -⟩
  · cases hp
  · cases he
    exact ⟨inner, hb⟩

/-- Bytes are read as a list of fields, and to their end, exactly if they are its form. They are the form of one list
at most, and the body of every group that is read can itself be read to its end. -/
theorem fields_eq_iff_form (bytes : List UInt8) (fs : List Field) :
    (fields bytes = ⟨fs, none⟩ ↔ MessageForm fs bytes) ∧
      (∀ fs', MessageForm fs bytes → MessageForm fs' bytes → fs' = fs) ∧
      ∀ f ∈ (fields bytes).values, ∀ body, f.value = .group body → (fields body).fault? = none := by
  refine ⟨⟨form_of_fields_eq, fields_eq_of_form⟩, ?_, ?_⟩
  · intro fs' h h'
    have he := (fields_eq_of_form h').symm.trans (fields_eq_of_form h)
    injection he
  · rintro ⟨n, v⟩ hf body rfl
    obtain ⟨inner, hb⟩ := form_of_group_mem hf
    rw [fields_eq_of_form hb]

end TraceTables.Wire
