import TraceTables.Proofs.Json.Grammar

/-! What the reader has taken in when some arrays and objects are open: an opening bracket for each of them, and behind
it the parts that are complete, with their commas. Each token keeps this, so a text that is read follows the
grammar. -/

namespace TraceTables.Json

/-! ## Parts and what stands before them -/

/-- A name with the blanks around it. -/
inductive NameText (name : Option String) : List Char → Prop
  | mk {as cs bs : List Char} : Blank as → QuotedText name cs → Blank bs → NameText name (as ++ (cs ++ bs))

theorem NameText.pad_right {name : Option String} {ns bs : List Char} (h : NameText name ns) (hb : Blank bs) :
    NameText name (ns ++ bs) := by
  obtain ⟨ha, hq, hb'⟩ := h
  simpa using NameText.mk ha hq (blank_append.2 ⟨hb', hb⟩)

variable [Reals]

/-- What stands between an opening bracket and the next part: blanks, or the parts so far and a comma. -/
inductive Lead {α : Type} (series : List α → WrittenPhrase) : List α → List Char → Prop
  | first {bs : List Char} : Blank bs → Lead series [] bs
  | later {parts : List α} {cs bs : List Char} : WrittenText (series parts) cs → Blank bs →
    Lead series parts (cs ++ ',' :: bs)

/-- A further item goes on the items so far; blanks behind the bracket or the comma are its own. -/
theorem Lead.item {items : List Written} {w : Written} {cs ds : List Char} (h : Lead .items items cs)
    (hw : WrittenText (.value w) ds) : WrittenText (.items (items ++ [w])) (cs ++ ds) := by
  cases h with
  | first hblank => exact .item (hw.pad_left hblank)
  | later hitems hblank =>
    rw [List.append_assoc, List.cons_append]
    exact .nextItem hitems (hw.pad_left hblank)

theorem Lead.member {members : List (Option String × Written)} {m : Option String × Written} {cs ds : List Char}
    (h : Lead .members members cs) (hm : WrittenText (.member m) ds) :
    WrittenText (.members (members ++ [m])) (cs ++ ds) := by
  cases h with
  | first hblank => exact .member (hm.pad_left hblank)
  | later hmembers hblank =>
    rw [List.append_assoc, List.cons_append]
    exact .nextMember hmembers (hm.pad_left hblank)

theorem NameText.member {name : Option String} {w : Written} {cs ds : List Char} (hname : NameText name cs)
    (hw : WrittenText (.value w) ds) : WrittenText (.member (name, w)) (cs ++ ':' :: ds) := by
  obtain ⟨ha, hq, hb⟩ := hname
  simpa using WrittenText.named ha hq hb hw

/-! ## What is open -/

/-- With these frames open, a value may stand behind the text. -/
inductive Awaits : List Frame → List Char → Prop
  | outside {bs : List Char} : Blank bs → Awaits [] bs
  | item {items : List Written} {outer : List Frame} {os ls : List Char} : Awaits outer os →
    Lead .items items.reverse ls → Awaits (.array items :: outer) (os ++ '[' :: ls)
  | member {members : List (Option String × Written)} {name : Option String} {outer : List Frame}
    {os ls ns bs : List Char} : Awaits outer os → Lead .members members.reverse ls → NameText name ns → Blank bs →
    Awaits (.member members name :: outer) (os ++ '\x7b' :: (ls ++ (ns ++ ':' :: bs)))

/-- The state of the reader behind the text. -/
inductive Reached : Nesting → List Char → Prop
  | value {frames : List Frame} {cs : List Char} : Awaits frames cs → Reached ⟨frames, .value⟩ cs
  | firstItem {outer : List Frame} {os bs : List Char} : Awaits outer os → Blank bs →
    Reached ⟨.array [] :: outer, .firstItem⟩ (os ++ '[' :: bs)
  | firstName {outer : List Frame} {os bs : List Char} : Awaits outer os → Blank bs →
    Reached ⟨.object [] :: outer, .name true⟩ (os ++ '\x7b' :: bs)
  | nextName {members : List (Option String × Written)} {outer : List Frame} {os ls : List Char} : Awaits outer os →
    Lead .members members.reverse ls → Reached ⟨.object members :: outer, .name false⟩ (os ++ '\x7b' :: ls)
  | colon {members : List (Option String × Written)} {name : Option String} {outer : List Frame}
    {os ls ns : List Char} : Awaits outer os → Lead .members members.reverse ls → NameText name ns →
    Reached ⟨.member members name :: outer, .colon⟩ (os ++ '\x7b' :: (ls ++ ns))
  | nextItem {items : List Written} {outer : List Frame} {os cs : List Char} : Awaits outer os →
    WrittenText (.items items.reverse) cs → Reached ⟨.array items :: outer, .next⟩ (os ++ '[' :: cs)
  | nextMember {members : List (Option String × Written)} {outer : List Frame} {os cs : List Char} : Awaits outer os →
    WrittenText (.members members.reverse) cs → Reached ⟨.object members :: outer, .next⟩ (os ++ '\x7b' :: cs)
  | finished {w : Written} {cs : List Char} : WrittenText (.value w) cs → Reached ⟨[], .finished w⟩ cs

/-! ## Blanks change nothing -/

theorem Lead.pad_right {α : Type} {series : List α → WrittenPhrase} {parts : List α} {ls bs : List Char}
    (h : Lead series parts ls) (hb : Blank bs) : Lead series parts (ls ++ bs) := by
  cases h with
  | first hblank => exact .first (blank_append.2 ⟨hblank, hb⟩)
  | later hseries hblank => simpa using Lead.later hseries (blank_append.2 ⟨hblank, hb⟩)

theorem Awaits.pad_right {frames : List Frame} {cs bs : List Char} (h : Awaits frames cs) (hb : Blank bs) :
    Awaits frames (cs ++ bs) := by
  cases h with
  | outside hblank => exact .outside (blank_append.2 ⟨hblank, hb⟩)
  | item houter hlead => simpa using Awaits.item houter (hlead.pad_right hb)
  | member houter hlead hname hblank =>
    simpa using Awaits.member houter hlead hname (blank_append.2 ⟨hblank, hb⟩)

theorem Reached.pad_right {p : Nesting} {cs bs : List Char} (h : Reached p cs) (hb : Blank bs) :
    Reached p (cs ++ bs) := by
  cases h with
  | value h => exact .value (h.pad_right hb)
  | firstItem houter hblank => simpa using Reached.firstItem houter (blank_append.2 ⟨hblank, hb⟩)
  | firstName houter hblank => simpa using Reached.firstName houter (blank_append.2 ⟨hblank, hb⟩)
  | nextName houter hlead => simpa using Reached.nextName houter (hlead.pad_right hb)
  | colon houter hlead hname => simpa using Reached.colon houter hlead (hname.pad_right hb)
  | nextItem houter hitems => simpa using Reached.nextItem houter (hitems.pad_right hb)
  | nextMember houter hmembers => simpa using Reached.nextMember houter (hmembers.pad_right hb)
  | finished h => exact .finished (h.pad_right hb)

/-! ## A token -/

/-- A complete value goes to where one may stand. -/
theorem Awaits.complete {frames : List Frame} {cs ds : List Char} {w : Written} {p : Nesting} (h : Awaits frames cs)
    (hw : WrittenText (.value w) ds) (hp : Json.complete w frames = some p) : Reached p (cs ++ ds) := by
  cases h with
  | outside hblank =>
    cases hp
    exact .finished (hw.pad_left hblank)
  | item houter hlead =>
    cases hp
    have hitems := hlead.item hw
    rw [← List.reverse_cons] at hitems
    simpa using Reached.nextItem houter hitems
  | member houter hlead hname hblank =>
    cases hp
    have hmembers := hlead.member (hname.member (hw.pad_left hblank))
    rw [← List.reverse_cons] at hmembers
    simpa using Reached.nextMember houter hmembers

theorem Awaits.readValue {frames : List Frame} {cs ds : List Char} {t : Token} {p : Nesting} (h : Awaits frames cs)
    (ht : t.Text ds) (hp : Json.readValue t frames = some p) : Reached p (cs ++ ds) := by
  unfold Json.readValue at hp
  split at hp
  · exact h.complete ht hp
  · exact h.complete (.string ht) hp
  · cases hp
    cases ht
    exact .firstItem h blank_nil
  · cases hp
    cases ht
    exact .firstName h blank_nil
  · cases hp

/-- Each token leads to the state behind it. -/
theorem Reached.feed {p p' : Nesting} {t : Token} {cs ds : List Char} (h : Reached p cs) (ht : t.Text ds)
    (hp : p.feed t = some p') : Reached p' (cs ++ ds) := by
  have hname {v : Option String} (ht : (Token.text v).Text ds) : NameText v ds := by
    simpa using NameText.mk blank_nil ht blank_nil
  cases h with
  | value h => exact h.readValue ht hp
  | @firstItem outer os bs houter hblank =>
    have hawaits : Awaits (.array [] :: outer) (os ++ '[' :: bs) := .item houter (.first hblank)
    cases t with
    | rightBracket =>
      cases ht
      simpa using houter.complete (.emptyArray hblank) hp
    | scalar | text | leftBrace | leftBracket | rightBrace | comma | colon => exact hawaits.readValue ht hp
  | firstName houter hblank =>
    cases t with
    | text v =>
      cases hp
      simpa using Reached.colon houter (.first hblank) (hname ht)
    | rightBrace =>
      cases ht
      simpa using houter.complete (.emptyObject hblank) hp
    | scalar | leftBrace | leftBracket | rightBracket | comma | colon => cases hp
  | nextName houter hlead =>
    cases t with
    | text v =>
      cases hp
      simpa using Reached.colon houter hlead (hname ht)
    | scalar | leftBrace | leftBracket | rightBrace | rightBracket | comma | colon => cases hp
  | colon houter hlead hn =>
    cases t with
    | colon =>
      cases hp
      cases ht
      simpa using Reached.value (.member houter hlead hn blank_nil)
    | scalar | text | leftBrace | leftBracket | rightBrace | rightBracket | comma => cases hp
  | nextItem houter hitems =>
    cases t with
    | comma =>
      cases hp
      cases ht
      simpa using Reached.value (.item houter (.later hitems blank_nil))
    | rightBracket =>
      cases ht
      simpa using houter.complete (.array hitems) hp
    | scalar | text | leftBrace | leftBracket | rightBrace | colon => cases hp
  | nextMember houter hmembers =>
    cases t with
    | comma =>
      cases hp
      cases ht
      simpa using Reached.nextName houter (.later hmembers blank_nil)
    | rightBrace =>
      cases ht
      simpa using houter.complete (.object hmembers) hp
    | scalar | text | leftBrace | leftBracket | rightBracket | colon => cases hp
  | finished h => cases hp

/-! ## A text -/

/-- The tokens of a text lead from one state to another, whatever was read before. -/
theorem Reached.read {p q : Nesting} {before cs : List Char} {ts : List Token} (h : Reached p before)
    (hts : Token.all? cs = some ts) (hq : ts.foldlM Nesting.feed p = some q) : Reached q (before ++ cs) := by
  fun_induction Token.all? cs generalizing p before ts with
  | case1 =>
    cases hts
    cases hq
    simpa using h
  | case2 c cs hc ih =>
    have hblank : Blank [c] := by simpa [Blank] using hc
    simpa using ih (h.pad_right hblank) hts hq
  | case3 => cases hts
  | case4 c cs _ t rest hread ih =>
    obtain ⟨ts, hrest, rfl⟩ := Option.map_eq_some_iff.1 hts
    rw [List.foldlM_cons] at hq
    obtain ⟨p', hp, hq⟩ := Option.bind_eq_some_iff.1 hq
    obtain ⟨ds, ht, hcs⟩ := Token.text_of_read hread
    rw [hcs, ← List.append_assoc]
    exact ih (h.feed ht hp) hrest hq

theorem Reached.finished_text {p : Nesting} {w : Written} {cs : List Char} (h : Reached p cs)
    (hw : p.place = .finished w) : WrittenText (.value w) cs := by
  cases h with
  | finished h =>
    cases hw
    exact h
  | value | firstItem | firstName | nextName | colon | nextItem | nextMember => cases hw

/-- A text that is read is one of the document. -/
theorem Written.text_of_read? {text : String} {w : Written} (h : Written.read? text = some w) : w.Text text := by
  obtain ⟨ts, hts, hw⟩ := Option.bind_eq_some_iff.1 h
  obtain ⟨p, hp, hplace⟩ := Option.bind_eq_some_iff.1 hw
  have hreached : Reached p text.toList := (Reached.value (.outside blank_nil)).read hts hp
  have hfinished : p.place = .finished w := by
    split at hplace
    · rename_i heq
      rw [heq, Option.some.inj hplace]
    · cases hplace
  exact hreached.finished_text hfinished

end TraceTables.Json
