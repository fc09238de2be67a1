import TraceTables.Proofs.Json.Frames

/-! Reading gives a text the value that the grammar gives it. The tokens of a phrase are the same whatever stands behind
it, as long as this does not go on with a number, and they lead the reader past the phrase with its parts in the frames.
So a text has one value at most. -/

namespace TraceTables.Json

/-! ## Tokens of a text -/

namespace Token

theorem isSpace_digit {c : Char} (hc : c.isDigit = true) : isSpace c = false := by
  rw [Bool.eq_false_iff]
  intro hs
  simp only [isSpace, Bool.or_eq_true, decide_eq_true_eq] at hs
  obtain ((rfl | rfl) | rfl) | rfl := hs <;> cases hc

inductive Punctuation : Char → Token → Prop
  | leftBrace : Punctuation '\x7b' .leftBrace
  | rightBrace : Punctuation '\x7d' .rightBrace
  | leftBracket : Punctuation '[' .leftBracket
  | rightBracket : Punctuation ']' .rightBracket
  | comma : Punctuation ',' .comma
  | colon : Punctuation ':' .colon

theorem Punctuation.ends {c : Char} {t : Token} (h : Punctuation c t) (cs : List Char) : Ends (c :: cs) := by
  cases h <;> simp [Ends]

theorem ends_nil : Ends [] := by simp [Ends]

theorem ends_blank {bs rest : List Char} (hb : Blank bs) (hrest : Ends rest) : Ends (bs ++ rest) := by
  cases bs with
  | nil => exact hrest
  | cons b bs =>
    have hspace : isSpace b = true := hb b List.mem_cons_self
    simp only [isSpace, Bool.or_eq_true, decide_eq_true_eq] at hspace
    rintro c ⟨⟩
    obtain ((rfl | rfl) | rfl) | rfl := hspace <;> exact ⟨rfl, by decide⟩

section Tokens

variable [Reals]

theorem all?_space {c : Char} (h : isSpace c = true) (cs : List Char) : all? (c :: cs) = all? cs := by
  rw [all?, if_pos h]

theorem all?_blank {bs : List Char} (h : Blank bs) (cs : List Char) : all? (bs ++ cs) = all? cs := by
  induction bs with
  | nil => rfl
  | cons b bs ih =>
    rw [List.cons_append, all?_space (h b List.mem_cons_self), ih fun c hc => h c (List.mem_cons_of_mem b hc)]

theorem all?_token {c : Char} {cs rest : List Char} {t : Token} (hc : isSpace c = false)
    (h : read c cs = some (t, rest)) : all? (c :: cs) = (all? rest).map (t :: ·) := by
  rw [all?, if_neg (Bool.eq_false_iff.1 hc)]
  split
  · rename_i hr
    rw [h] at hr
    cases hr
  · rename_i t' rest' hr
    rw [h] at hr
    cases hr
    rfl

/-- These are the tokens of the text whenever it is followed by something that does not go on with a number. -/
def Lexes (cs : List Char) (ts : List Token) : Prop :=
  ∀ rest, Ends rest → all? (cs ++ rest) = (all? rest).map (ts ++ ·)

theorem Punctuation.read {c : Char} {t : Token} (h : Punctuation c t) (cs : List Char) :
    isSpace c = false ∧ Token.read c cs = some (t, cs) := by
  cases h <;> simp [isSpace, Token.read]

namespace Lexes

theorem nil : Lexes [] [] := fun rest _ => by simp

theorem cons {c : Char} {t : Token} {cs : List Char} {ts : List Token} (hp : Punctuation c t) (h : Lexes cs ts) :
    Lexes (c :: cs) (t :: ts) := by
  intro rest hrest
  obtain ⟨hc, hread⟩ := hp.read (cs ++ rest)
  rw [List.cons_append, all?_token hc hread, h rest hrest, Option.map_map]
  rfl

theorem append {c : Char} {t : Token} {cs ds : List Char} {ts us : List Token} (h : Lexes cs ts)
    (hp : Punctuation c t) (hd : Lexes ds us) : Lexes (cs ++ c :: ds) (ts ++ t :: us) := by
  intro rest hrest
  have hrest' := hd.cons hp rest hrest
  rw [List.cons_append] at hrest'
  rw [List.append_assoc, List.cons_append, h _ (hp.ends _), hrest', Option.map_map]
  simp [Function.comp_def]

theorem pad {as cs bs : List Char} {ts : List Token} (ha : Blank as) (h : Lexes cs ts) (hb : Blank bs) :
    Lexes (as ++ (cs ++ bs)) ts := by
  intro rest hrest
  rw [List.append_assoc, all?_blank ha, List.append_assoc, h _ (ends_blank hb hrest), all?_blank hb]

end Lexes

theorem lexes_null : Lexes ['n', 'u', 'l', 'l'] [.scalar (some .null)] := fun _ _ => all?_token rfl rfl

theorem lexes_true : Lexes ['t', 'r', 'u', 'e'] [.scalar (some (.bool true))] := fun _ _ => all?_token rfl rfl

theorem lexes_false : Lexes ['f', 'a', 'l', 's', 'e'] [.scalar (some (.bool false))] :=
  fun _ _ => all?_token rfl rfl

theorem lexes_string {v : Option String} {cs : List Char} (h : QuotedText v cs) : Lexes cs [.text v] := by
  intro rest _
  obtain ⟨more, us, hcs, hread, hv⟩ := readString_of_quotedText h rest
  have htoken : read '"' more = some (.text v, rest) := by simp [read, hread, hv]
  rw [hcs, all?_token rfl htoken]
  rfl

theorem read_digit {c : Char} (hc : c.isDigit = true) (cs : List Char) : read c cs = readNumber false (c :: cs) := by
  unfold read
  split
  case h_12 => rw [if_pos hc]
  all_goals cases hc

theorem lexes_number {l : Literal} {v : Option Number} {cs : List Char} (htext : l.Text cs)
    (hv : ∀ x, v = some x ↔ l.Denotes x) : Lexes cs [.scalar (v.map .number)] := by
  intro rest hrest
  have hnumber : l.number? = v := Option.ext fun x => Literal.number?_eq_some_iff.trans (hv x).symm
  have hread {ds : List Char} (hds : l.UnsignedText ds) :
      readNumber l.negative (ds ++ rest) = some (.scalar (v.map .number), rest) := by
    simp [readNumber, readLiteral_append hds hrest, hnumber]
  cases htext with
  | positive hn hds =>
    obtain ⟨d, more, rfl, hd⟩ := hds.begins
    have hnumber := hread hds
    rw [hn, List.cons_append, ← read_digit hd] at hnumber
    rw [List.cons_append, all?_token (isSpace_digit hd) hnumber]
    rfl
  | @negative ds hn hds =>
    have hnumber : read '-' (ds ++ rest) = some (.scalar (v.map .number), rest) := by
      rw [← hread hds, hn]
      rfl
    rw [List.cons_append, all?_token rfl hnumber]
    rfl

end Tokens

end Token

/-! ## Feeding the tokens -/

/-- The tokens of a phrase bring a value to where it belongs, and parts one by one into the frame that is open. -/
def Feeds (ts : List Token) : WrittenPhrase → Prop
  | .value w => ∀ frames place, place ∈ [.value, .firstItem] →
    ts.foldlM Nesting.feed ⟨frames, place⟩ = complete w frames
  | .items ws => ∀ outer,
    ts.foldlM Nesting.feed ⟨.array [] :: outer, .firstItem⟩ = some ⟨.array ws.reverse :: outer, .next⟩
  | .member m => ∀ members outer mayEnd,
    ts.foldlM Nesting.feed ⟨.object members :: outer, .name mayEnd⟩ = some ⟨.object (m :: members) :: outer, .next⟩
  | .members ms => ∀ outer,
    ts.foldlM Nesting.feed ⟨.object [] :: outer, .name true⟩ = some ⟨.object ms.reverse :: outer, .next⟩

/-- Where a value may stand, every token but the end of an array begins one. -/
theorem feed_value {frames : List Frame} {place : Place} {t : Token} (hp : place ∈ [.value, .firstItem])
    (hne : t ≠ .rightBracket) : Nesting.feed ⟨frames, place⟩ t = readValue t frames := by
  simp only [List.mem_cons, List.not_mem_nil, or_false] at hp
  obtain rfl | rfl := hp
  · rfl
  · simp [Nesting.feed]

theorem feeds_scalar {v : Option Scalar} : Feeds [.scalar v] (.value (.scalar v)) :=
  fun frames place hp => by simp [feed_value hp, readValue]

theorem feeds_string {v : Option String} : Feeds [.text v] (.value (.scalar (v.map .string))) :=
  fun frames place hp => by simp [feed_value hp, readValue]

section Marks

variable {outer : List Frame} {items : List Written} {members : List (Option String × Written)}

theorem feed_leftBracket {place : Place} (hp : place ∈ [.value, .firstItem]) :
    Nesting.feed ⟨outer, place⟩ .leftBracket = some ⟨.array [] :: outer, .firstItem⟩ := feed_value hp (by simp)

theorem feed_leftBrace {place : Place} (hp : place ∈ [.value, .firstItem]) :
    Nesting.feed ⟨outer, place⟩ .leftBrace = some ⟨.object [] :: outer, .name true⟩ := feed_value hp (by simp)

theorem feed_firstItem_rightBracket :
    Nesting.feed ⟨.array [] :: outer, .firstItem⟩ .rightBracket = complete (.array []) outer := rfl

theorem feed_firstName_rightBrace :
    Nesting.feed ⟨.object [] :: outer, .name true⟩ .rightBrace = complete (.object []) outer := rfl

theorem feed_next_rightBracket :
    Nesting.feed ⟨.array items.reverse :: outer, .next⟩ .rightBracket = complete (.array items) outer := by
  simp [Nesting.feed, close]

theorem feed_next_rightBrace :
    Nesting.feed ⟨.object members.reverse :: outer, .next⟩ .rightBrace = complete (.object members) outer := by
  simp [Nesting.feed, close]

theorem feed_item_comma :
    Nesting.feed ⟨.array items :: outer, .next⟩ .comma = some ⟨.array items :: outer, .value⟩ := rfl

theorem feed_member_comma :
    Nesting.feed ⟨.object members :: outer, .next⟩ .comma = some ⟨.object members :: outer, .name false⟩ := rfl

theorem feed_name {v : Option String} {mayEnd : Bool} :
    Nesting.feed ⟨.object members :: outer, .name mayEnd⟩ (.text v) = some ⟨.member members v :: outer, .colon⟩ := rfl

theorem feed_colon {frames : List Frame} : Nesting.feed ⟨frames, .colon⟩ .colon = some ⟨frames, .value⟩ := rfl

end Marks

/-- Every phrase has tokens, and they are read for what it is. Items and members are added behind those that are there,
so the frames around are left open in the induction. -/
theorem feeds_of_writtenText [Reals] {p : WrittenPhrase} {cs : List Char} (h : WrittenText p cs) :
    ∃ ts, Token.Lexes cs ts ∧ Feeds ts p := by
  induction h with
  | null => exact ⟨_, Token.lexes_null, feeds_scalar⟩
  | true => exact ⟨_, Token.lexes_true, feeds_scalar⟩
  | false => exact ⟨_, Token.lexes_false, feeds_scalar⟩
  | number hl hx => exact ⟨_, Token.lexes_number hl hx, feeds_scalar⟩
  | string hs => exact ⟨_, Token.lexes_string hs, feeds_string⟩
  | emptyArray hb =>
    refine ⟨_, .cons .leftBracket (.pad hb (.cons .rightBracket .nil) blank_nil), fun frames place hp => ?_⟩
    simp [feed_leftBracket hp, feed_firstItem_rightBracket]
  | array _ ih =>
    obtain ⟨ts, hts, hfeed⟩ := ih
    refine ⟨_, .cons .leftBracket (hts.append .rightBracket .nil), fun frames place hp => ?_⟩
    simp [feed_leftBracket hp, hfeed frames, feed_next_rightBracket]
  | emptyObject hb =>
    refine ⟨_, .cons .leftBrace (.pad hb (.cons .rightBrace .nil) blank_nil), fun frames place hp => ?_⟩
    simp [feed_leftBrace hp, feed_firstName_rightBrace]
  | object _ ih =>
    obtain ⟨ts, hts, hfeed⟩ := ih
    refine ⟨_, .cons .leftBrace (hts.append .rightBrace .nil), fun frames place hp => ?_⟩
    simp [feed_leftBrace hp, hfeed frames, feed_next_rightBrace]
  | padded ha _ hb ih =>
    obtain ⟨ts, hts, hfeeds⟩ := ih
    exact ⟨ts, hts.pad ha hb, hfeeds⟩
  | item _ ih =>
    obtain ⟨ts, hts, hfeed⟩ := ih
    refine ⟨ts, hts, fun outer => ?_⟩
    rw [hfeed _ _ (by simp)]
    rfl
  | nextItem _ _ ih ihLast =>
    obtain ⟨ts, hts, hfeed⟩ := ih
    obtain ⟨us, hus, hfeedLast⟩ := ihLast
    refine ⟨_, hts.append .comma hus, fun outer => ?_⟩
    simp [hfeed outer, feed_item_comma, hfeedLast _ .value, complete]
  | @named v _ as cs bs ds ha hs hb _ ih =>
    obtain ⟨ts, hts, hfeed⟩ := ih
    have hname : Token.Lexes (as ++ (cs ++ bs)) [.text v] := (Token.lexes_string hs).pad ha hb
    refine ⟨_, by simpa using hname.append .colon hts, fun members outer mayEnd => ?_⟩
    simp [feed_name, feed_colon, hfeed _ .value, complete]
  | member _ ih =>
    obtain ⟨ts, hts, hfeed⟩ := ih
    refine ⟨ts, hts, fun outer => ?_⟩
    rw [hfeed]
    rfl
  | nextMember _ _ ih ihLast =>
    obtain ⟨ts, hts, hfeed⟩ := ih
    obtain ⟨us, hus, hfeedLast⟩ := ihLast
    refine ⟨_, hts.append .comma hus, fun outer => ?_⟩
    simp [hfeed outer, feed_member_comma, hfeedLast _ outer false]

section Document

variable [Reals] {text : String}

/-- Reading takes a text for the document that it is the text of. -/
theorem Written.read?_eq_some_iff {w : Written} : Written.read? text = some w ↔ w.Text text := by
  refine ⟨text_of_read?, fun h => ?_⟩
  obtain ⟨ts, hts, hfeed⟩ := feeds_of_writtenText h
  have hall : Token.all? text.toList = some ts := by simpa [Token.all?] using hts [] Token.ends_nil
  have htokens : Written.ofTokens? ts = some w := by
    simp [Written.ofTokens?, hfeed [] .value (by simp), complete]
  simp [Written.read?, hall, htokens]

/-- Reading gives the value that the grammar gives. -/
theorem read?_eq_some_iff {j : Json} : read? text = some j ↔ Denotes text j := by
  simp only [read?, Option.bind_eq_some_iff, Written.read?_eq_some_iff, denotes_iff]

theorem Denotes.unique {i j : Json} (hi : Denotes text i) (hj : Denotes text j) : i = j :=
  Option.some.inj ((read?_eq_some_iff.2 hi).symm.trans (read?_eq_some_iff.2 hj))

end Document

end TraceTables.Json
