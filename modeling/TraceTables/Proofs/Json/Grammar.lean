import TraceTables.Json.Reader
import TraceTables.Proofs.Json.Numeral
import TraceTables.Proofs.Json.Quoted

/-! The grammar of JSON texts. A phrase is a value, the items of an array, a member or the members of an object; its
texts are built from those of its parts, and blanks may stand around values and names. Numbers that are refused and
strings with half of a surrogate pair have a text and no value, and nothing in which they stand has one. A value also
takes one of the levels that there are for each array and object that is open. -/

namespace TraceTables.Json

/-! ## Texts with a value -/

def Blank (cs : List Char) : Prop := ∀ c ∈ cs, Token.isSpace c = true

inductive Phrase where
  | value (j : Json)
  | items (js : List Json)
  | member (m : String × Json)
  | members (ms : List (String × Json))

/-- The texts of a phrase in which no more arrays and objects are open at once than there are levels. -/
inductive PhraseText [Reals] : Nat → Phrase → List Char → Prop
  | null {n : Nat} : PhraseText n (.value .null) ['n', 'u', 'l', 'l']
  | true {n : Nat} : PhraseText n (.value (.bool true)) ['t', 'r', 'u', 'e']
  | false {n : Nat} : PhraseText n (.value (.bool false)) ['f', 'a', 'l', 's', 'e']
  | number {n : Nat} {x : Number} {cs : List Char} : NumberText x cs → PhraseText n (.value (.number x)) cs
  | string {n : Nat} {s : String} {cs : List Char} : StringText s cs → PhraseText n (.value (.string s)) cs
  | emptyArray {n : Nat} {bs : List Char} : Blank bs → PhraseText (n + 1) (.value (.array [])) ('[' :: (bs ++ [']']))
  | array {n : Nat} {js : List Json} {cs : List Char} : PhraseText n (.items js) cs →
    PhraseText (n + 1) (.value (.array js)) ('[' :: (cs ++ [']']))
  | emptyObject {n : Nat} {bs : List Char} : Blank bs →
    PhraseText (n + 1) (.value (.object [])) ('\x7b' :: (bs ++ ['\x7d']))
  | object {n : Nat} {ms : List (String × Json)} {cs : List Char} : PhraseText n (.members ms) cs →
    PhraseText (n + 1) (.value (.object ms)) ('\x7b' :: (cs ++ ['\x7d']))
  | padded {n : Nat} {j : Json} {as cs bs : List Char} : Blank as → PhraseText n (.value j) cs → Blank bs →
    PhraseText n (.value j) (as ++ (cs ++ bs))
  | item {n : Nat} {j : Json} {cs : List Char} : PhraseText n (.value j) cs → PhraseText n (.items [j]) cs
  | nextItem {n : Nat} {js : List Json} {j : Json} {cs ds : List Char} : PhraseText n (.items js) cs →
    PhraseText n (.value j) ds → PhraseText n (.items (js ++ [j])) (cs ++ ',' :: ds)
  | named {n : Nat} {name : String} {j : Json} {as cs bs ds : List Char} : Blank as → StringText name cs → Blank bs →
    PhraseText n (.value j) ds → PhraseText n (.member (name, j)) (as ++ (cs ++ (bs ++ ':' :: ds)))
  | member {n : Nat} {m : String × Json} {cs : List Char} : PhraseText n (.member m) cs → PhraseText n (.members [m]) cs
  | nextMember {n : Nat} {ms : List (String × Json)} {m : String × Json} {cs ds : List Char} :
    PhraseText n (.members ms) cs → PhraseText n (.member m) ds →
    PhraseText n (.members (ms ++ [m])) (cs ++ ',' :: ds)

/-- The text has this value. -/
def Denotes [Reals] (text : String) (j : Json) : Prop := PhraseText maxOpen (.value j) text.toList

/-! ## Texts with and without a value -/

/-- A phrase whose scalars and names may have no value. -/
inductive WrittenPhrase where
  | value (w : Written)
  | items (ws : List Written)
  | member (m : Option String × Written)
  | members (ms : List (Option String × Written))

inductive WrittenText [Reals] : WrittenPhrase → List Char → Prop
  | null : WrittenText (.value (.scalar (some .null))) ['n', 'u', 'l', 'l']
  | true : WrittenText (.value (.scalar (some (.bool true)))) ['t', 'r', 'u', 'e']
  | false : WrittenText (.value (.scalar (some (.bool false)))) ['f', 'a', 'l', 's', 'e']
  | number {l : Token.Literal} {v : Option Number} {cs : List Char} : l.Text cs → (∀ x, v = some x ↔ l.Denotes x) →
    WrittenText (.value (.scalar (v.map .number))) cs
  | string {v : Option String} {cs : List Char} : QuotedText v cs → WrittenText (.value (.scalar (v.map .string))) cs
  | emptyArray {bs : List Char} : Blank bs → WrittenText (.value (.array [])) ('[' :: (bs ++ [']']))
  | array {ws : List Written} {cs : List Char} : WrittenText (.items ws) cs →
    WrittenText (.value (.array ws)) ('[' :: (cs ++ [']']))
  | emptyObject {bs : List Char} : Blank bs → WrittenText (.value (.object [])) ('\x7b' :: (bs ++ ['\x7d']))
  | object {ms : List (Option String × Written)} {cs : List Char} : WrittenText (.members ms) cs →
    WrittenText (.value (.object ms)) ('\x7b' :: (cs ++ ['\x7d']))
  | padded {w : Written} {as cs bs : List Char} : Blank as → WrittenText (.value w) cs → Blank bs →
    WrittenText (.value w) (as ++ (cs ++ bs))
  | item {w : Written} {cs : List Char} : WrittenText (.value w) cs → WrittenText (.items [w]) cs
  | nextItem {ws : List Written} {w : Written} {cs ds : List Char} : WrittenText (.items ws) cs →
    WrittenText (.value w) ds → WrittenText (.items (ws ++ [w])) (cs ++ ',' :: ds)
  | named {v : Option String} {w : Written} {as cs bs ds : List Char} : Blank as → QuotedText v cs → Blank bs →
    WrittenText (.value w) ds → WrittenText (.member (v, w)) (as ++ (cs ++ (bs ++ ':' :: ds)))
  | member {m : Option String × Written} {cs : List Char} : WrittenText (.member m) cs → WrittenText (.members [m]) cs
  | nextMember {ms : List (Option String × Written)} {m : Option String × Written} {cs ds : List Char} :
    WrittenText (.members ms) cs → WrittenText (.member m) ds →
    WrittenText (.members (ms ++ [m])) (cs ++ ',' :: ds)

/-- The text is that of a document, which may have no value. -/
def Written.Text [Reals] (w : Written) (text : String) : Prop := WrittenText (.value w) text.toList

/-! ## The value of a text -/

def memberValue? (n : Nat) (m : Option String × Written) : Option (String × Json) := do
  return (← m.1, ← m.2.value? n)

theorem value?_object (n : Nat) (members : List (Option String × Written)) :
    (Written.object members).value? (n + 1) = (members.mapM (memberValue? n)).map .object := rfl

/-- A phrase has the values of its parts. -/
def WrittenPhrase.value? (n : Nat) : WrittenPhrase → Option Phrase
  | value w => (w.value? n).map .value
  | items ws => (ws.mapM (Written.value? n)).map .items
  | member m => (memberValue? n m).map .member
  | members ms => (ms.mapM (memberValue? n)).map .members

namespace WrittenPhrase

variable {n : Nat} {p : Phrase}

theorem value?_scalar {s : Scalar} : (value (.scalar (some s))).value? n = some (.value s.value) := by
  rw [value?, Written.value?, Option.map_some, Option.map_some]

theorem value?_array {ws : List Written} :
    (value (.array ws)).value? n = some p ↔
      ∃ m js, n = m + 1 ∧ (items ws).value? m = some (.items js) ∧ p = .value (.array js) := by
  cases n with
  | zero => simp [value?, Written.value?]
  | succ m => cases h : ws.mapM (Written.value? m) <;> simp [value?, Written.value?, h, eq_comm]

theorem value?_object {ms : List (Option String × Written)} :
    (value (.object ms)).value? n = some p ↔
      ∃ m xs, n = m + 1 ∧ (members ms).value? m = some (.members xs) ∧ p = .value (.object xs) := by
  cases n with
  | zero => simp [value?, Written.value?]
  | succ m => cases h : ms.mapM (memberValue? m) <;> simp [value?, Json.value?_object, h, eq_comm]

theorem value?_item {w : Written} :
    (items [w]).value? n = some p ↔ ∃ j, (value w).value? n = some (.value j) ∧ p = .items [j] := by
  cases h : w.value? n <;> simp [value?, h, eq_comm]

theorem value?_nextItem {ws : List Written} {w : Written} :
    (items (ws ++ [w])).value? n = some p ↔
      ∃ js j, (items ws).value? n = some (.items js) ∧ (value w).value? n = some (.value j) ∧
        p = .items (js ++ [j]) := by
  cases hws : ws.mapM (Written.value? n) <;> cases hw : w.value? n <;> simp [value?, hws, hw, eq_comm]

theorem value?_named {v : Option String} {w : Written} :
    (member (v, w)).value? n = some p ↔
      ∃ name j, v = some name ∧ (value w).value? n = some (.value j) ∧ p = .member (name, j) := by
  cases v <;> cases h : w.value? n <;> simp [value?, memberValue?, h, eq_comm]

theorem value?_member {m : Option String × Written} :
    (members [m]).value? n = some p ↔ ∃ x, (member m).value? n = some (.member x) ∧ p = .members [x] := by
  cases h : memberValue? n m <;> simp [value?, h, eq_comm]

theorem value?_nextMember {ms : List (Option String × Written)} {m : Option String × Written} :
    (members (ms ++ [m])).value? n = some p ↔
      ∃ xs x, (members ms).value? n = some (.members xs) ∧ (member m).value? n = some (.member x) ∧
        p = .members (xs ++ [x]) := by
  cases hms : ms.mapM (memberValue? n) <;> cases hm : memberValue? n m <;> simp [value?, hms, hm, eq_comm]

/-! A phrase is of the kind of its value. -/

variable {wp : WrittenPhrase}

theorem eq_value {j : Json} (h : wp.value? n = some (.value j)) : ∃ w, wp = .value w := by
  cases wp <;> simp [value?] at h ⊢

theorem eq_items {js : List Json} (h : wp.value? n = some (.items js)) : ∃ ws, wp = .items ws := by
  cases wp <;> simp [value?] at h ⊢

theorem eq_member {x : String × Json} (h : wp.value? n = some (.member x)) : ∃ m, wp = .member m := by
  cases wp <;> simp [value?] at h ⊢

theorem eq_members {xs : List (String × Json)} (h : wp.value? n = some (.members xs)) : ∃ ms, wp = .members ms := by
  cases wp <;> simp [value?] at h ⊢

end WrittenPhrase

section Value

variable [Reals] {n : Nat} {p : Phrase} {wp : WrittenPhrase} {cs : List Char}

/-- A text of what has a value is one of the value. -/
theorem phraseText_of_writtenText (h : WrittenText wp cs) (hp : wp.value? n = some p) : PhraseText n p cs := by
  induction h generalizing n p with
  | null | true | false =>
    rw [WrittenPhrase.value?, Written.value?] at hp
    cases hp
    constructor
  | @number l v cs hl hx =>
    rw [WrittenPhrase.value?, Written.value?] at hp
    cases v with
    | none => cases hp
    | some x =>
      cases hp
      exact .number ⟨l, hl, (hx x).1 rfl⟩
  | @string v cs hs =>
    rw [WrittenPhrase.value?, Written.value?] at hp
    cases v with
    | none => cases hp
    | some s =>
      cases hp
      exact .string (quotedText_some_iff.1 hs)
  | emptyArray hb =>
    obtain ⟨m, js, rfl, hjs, rfl⟩ := WrittenPhrase.value?_array.1 hp
    cases hjs
    exact .emptyArray hb
  | array _ ih =>
    obtain ⟨m, js, rfl, hjs, rfl⟩ := WrittenPhrase.value?_array.1 hp
    exact .array (ih hjs)
  | emptyObject hb =>
    obtain ⟨m, ms, rfl, hms, rfl⟩ := WrittenPhrase.value?_object.1 hp
    cases hms
    exact .emptyObject hb
  | object _ ih =>
    obtain ⟨m, ms, rfl, hms, rfl⟩ := WrittenPhrase.value?_object.1 hp
    exact .object (ih hms)
  | padded ha _ hb ih =>
    obtain ⟨j, hj, rfl⟩ := Option.map_eq_some_iff.1 hp
    exact .padded ha (ih hp) hb
  | item _ ih =>
    obtain ⟨j, hj, rfl⟩ := WrittenPhrase.value?_item.1 hp
    exact .item (ih hj)
  | nextItem _ _ ih ihLast =>
    obtain ⟨js, j, hjs, hj, rfl⟩ := WrittenPhrase.value?_nextItem.1 hp
    exact .nextItem (ih hjs) (ihLast hj)
  | named ha hs hb _ ih =>
    obtain ⟨name, j, rfl, hj, rfl⟩ := WrittenPhrase.value?_named.1 hp
    exact .named ha (quotedText_some_iff.1 hs) hb (ih hj)
  | member _ ih =>
    obtain ⟨m, hm, rfl⟩ := WrittenPhrase.value?_member.1 hp
    exact .member (ih hm)
  | nextMember _ _ ih ihLast =>
    obtain ⟨ms, m, hms, hm, rfl⟩ := WrittenPhrase.value?_nextMember.1 hp
    exact .nextMember (ih hms) (ihLast hm)

/-- What denotes a value is written, and has it. -/
theorem exists_writtenText (h : PhraseText n p cs) : ∃ wp, WrittenText wp cs ∧ wp.value? n = some p := by
  induction h with
  | null => exact ⟨_, .null, WrittenPhrase.value?_scalar⟩
  | true => exact ⟨_, .true, WrittenPhrase.value?_scalar⟩
  | false => exact ⟨_, .false, WrittenPhrase.value?_scalar⟩
  | number hx =>
    obtain ⟨l, hl, hx⟩ := hx
    have hv : l.number? = some _ := Token.Literal.number?_eq_some_iff.2 hx
    refine ⟨_, .number hl fun y => Token.Literal.number?_eq_some_iff, ?_⟩
    rw [hv]
    exact WrittenPhrase.value?_scalar
  | string hs => exact ⟨_, .string (quotedText_some_iff.2 hs), WrittenPhrase.value?_scalar⟩
  | emptyArray hb => exact ⟨_, .emptyArray hb, WrittenPhrase.value?_array.2 ⟨_, _, rfl, rfl, rfl⟩⟩
  | array _ ih =>
    obtain ⟨wp, hws, hv⟩ := ih
    obtain ⟨ws, rfl⟩ := WrittenPhrase.eq_items hv
    exact ⟨_, .array hws, WrittenPhrase.value?_array.2 ⟨_, _, rfl, hv, rfl⟩⟩
  | emptyObject hb => exact ⟨_, .emptyObject hb, WrittenPhrase.value?_object.2 ⟨_, _, rfl, rfl, rfl⟩⟩
  | object _ ih =>
    obtain ⟨wp, hms, hv⟩ := ih
    obtain ⟨ms, rfl⟩ := WrittenPhrase.eq_members hv
    exact ⟨_, .object hms, WrittenPhrase.value?_object.2 ⟨_, _, rfl, hv, rfl⟩⟩
  | padded ha _ hb ih =>
    obtain ⟨wp, hw, hv⟩ := ih
    obtain ⟨w, rfl⟩ := WrittenPhrase.eq_value hv
    exact ⟨_, .padded ha hw hb, hv⟩
  | item _ ih =>
    obtain ⟨wp, hw, hv⟩ := ih
    obtain ⟨w, rfl⟩ := WrittenPhrase.eq_value hv
    exact ⟨_, .item hw, WrittenPhrase.value?_item.2 ⟨_, hv, rfl⟩⟩
  | nextItem _ _ ih ihLast =>
    obtain ⟨wp, hws, hv⟩ := ih
    obtain ⟨wp', hw, hvLast⟩ := ihLast
    obtain ⟨ws, rfl⟩ := WrittenPhrase.eq_items hv
    obtain ⟨w, rfl⟩ := WrittenPhrase.eq_value hvLast
    exact ⟨_, .nextItem hws hw, WrittenPhrase.value?_nextItem.2 ⟨_, _, hv, hvLast, rfl⟩⟩
  | named ha hs hb _ ih =>
    obtain ⟨wp, hw, hv⟩ := ih
    obtain ⟨w, rfl⟩ := WrittenPhrase.eq_value hv
    exact ⟨_, .named ha (quotedText_some_iff.2 hs) hb hw, WrittenPhrase.value?_named.2 ⟨_, _, rfl, hv, rfl⟩⟩
  | member _ ih =>
    obtain ⟨wp, hm, hv⟩ := ih
    obtain ⟨m, rfl⟩ := WrittenPhrase.eq_member hv
    exact ⟨_, .member hm, WrittenPhrase.value?_member.2 ⟨_, hv, rfl⟩⟩
  | nextMember _ _ ih ihLast =>
    obtain ⟨wp, hms, hv⟩ := ih
    obtain ⟨wp', hm, hvLast⟩ := ihLast
    obtain ⟨ms, rfl⟩ := WrittenPhrase.eq_members hv
    obtain ⟨m, rfl⟩ := WrittenPhrase.eq_member hvLast
    exact ⟨_, .nextMember hms hm, WrittenPhrase.value?_nextMember.2 ⟨_, _, hv, hvLast, rfl⟩⟩

/-- A text denotes the value of the document that it is the text of. -/
theorem denotes_iff {text : String} {j : Json} :
    Denotes text j ↔ ∃ w : Written, w.Text text ∧ w.value? maxOpen = some j := by
  constructor
  · intro h
    obtain ⟨wp, hw, hv⟩ := exists_writtenText h
    obtain ⟨w, rfl⟩ := WrittenPhrase.eq_value hv
    obtain ⟨j', hj, heq⟩ := Option.map_eq_some_iff.1 hv
    cases heq
    exact ⟨w, hw, hj⟩
  · rintro ⟨w, hw, hj⟩
    exact phraseText_of_writtenText hw (by rw [WrittenPhrase.value?, hj, Option.map_some])

end Value

/-! ## Blanks around a text -/

theorem blank_nil : Blank [] := fun _ hc => absurd hc List.not_mem_nil

theorem blank_append {as bs : List Char} : Blank (as ++ bs) ↔ Blank as ∧ Blank bs := by
  simp only [Blank, List.mem_append, or_imp, forall_and]

namespace WrittenText

variable [Reals] {wp : WrittenPhrase} {as bs cs : List Char}

/-- Blanks may stand around every phrase. -/
theorem pad (ha : Blank as) (h : WrittenText wp cs) (hb : Blank bs) : WrittenText wp (as ++ (cs ++ bs)) := by
  induction h generalizing as bs with
  | null => exact .padded ha .null hb
  | true => exact .padded ha .true hb
  | false => exact .padded ha .false hb
  | number hl hx => exact .padded ha (.number hl hx) hb
  | string hs => exact .padded ha (.string hs) hb
  | emptyArray h => exact .padded ha (.emptyArray h) hb
  | array h => exact .padded ha (.array h) hb
  | emptyObject h => exact .padded ha (.emptyObject h) hb
  | object h => exact .padded ha (.object h) hb
  | padded ha' h hb' => exact .padded ha (.padded ha' h hb') hb
  | item _ ih => exact .item (ih ha hb)
  | nextItem _ _ ih ihLast => simpa using nextItem (ih ha blank_nil) (ihLast blank_nil hb)
  | named ha' hs hb' _ ih => simpa using named (blank_append.2 ⟨ha, ha'⟩) hs hb' (ih blank_nil hb)
  | member _ ih => exact .member (ih ha hb)
  | nextMember _ _ ih ihLast => simpa using nextMember (ih ha blank_nil) (ihLast blank_nil hb)

theorem pad_left (ha : Blank as) (h : WrittenText wp cs) : WrittenText wp (as ++ cs) := by
  simpa using pad ha h blank_nil

theorem pad_right (h : WrittenText wp cs) (hb : Blank bs) : WrittenText wp (cs ++ bs) := by
  simpa using pad blank_nil h hb

end WrittenText

/-! ## Tokens -/

/-- The texts of a token. -/
def Token.Text [Reals] : Token → List Char → Prop
  | .leftBrace, cs => cs = ['\x7b']
  | .rightBrace, cs => cs = ['\x7d']
  | .leftBracket, cs => cs = ['[']
  | .rightBracket, cs => cs = [']']
  | .comma, cs => cs = [',']
  | .colon, cs => cs = [':']
  | .scalar v, cs => WrittenText (.value (.scalar v)) cs
  | .text v, cs => QuotedText v cs

section Reading

variable [Reals]

theorem Token.text_of_readNumber {negative : Bool} {cs rest : List Char} {t : Token}
    (h : readNumber negative cs = some (t, rest)) :
    ∃ ds, t.Text ((if negative then ['-'] else []) ++ ds) ∧ cs = ds ++ rest := by
  obtain ⟨⟨l, _⟩, hl, ht⟩ := Option.bind_eq_some_iff.1 h
  cases ht
  obtain ⟨rfl, ds, hds, rfl⟩ := readLiteral_sound hl
  refine ⟨ds, .number ?_ fun x => Literal.number?_eq_some_iff, rfl⟩
  cases hn : l.negative with
  | false => exact .positive hn hds
  | true => exact .negative hn hds

theorem Token.text_of_read {c : Char} {cs rest : List Char} {t : Token} (h : read c cs = some (t, rest)) :
    ∃ ds, t.Text ds ∧ c :: cs = ds ++ rest := by
  unfold read at h
  split at h
  case h_7 =>
    obtain ⟨⟨us, _⟩, hr, he⟩ := Option.map_eq_some_iff.1 h
    cases he
    exact quotedText_of_readString hr
  case h_8 =>
    obtain ⟨ds, hds, rfl⟩ := text_of_readNumber h
    exact ⟨_, hds, rfl⟩
  case h_9 =>
    cases h
    exact ⟨['n', 'u', 'l', 'l'], .null, rfl⟩
  case h_10 =>
    cases h
    exact ⟨['t', 'r', 'u', 'e'], .true, rfl⟩
  case h_11 =>
    cases h
    exact ⟨['f', 'a', 'l', 's', 'e'], .false, rfl⟩
  case h_12 =>
    split at h
    · exact text_of_readNumber h
    · cases h
  all_goals
    cases h
    exact ⟨_, rfl, rfl⟩

end Reading

end TraceTables.Json
