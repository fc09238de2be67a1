import TraceTables.Wire.Token

/-! The fields of a message in stream order. A group is one field whose body is all that stands between its two
tags; groups inside it must be closed in turn, each by the number that opened it. -/

namespace TraceTables.Wire

/-- Looks for the end of the group `inner`, the innermost of the open ones, which the groups `around` enclose.
The answer is the bytes from the end tag of the outermost group on, and those behind that tag. If the bytes
end first it is the `outermost` group that is reported. -/
def findGroupEnd (outermost inner : Nat) (around : List Nat) (bytes : List UInt8) :
    Except Fault (List UInt8 × List UInt8) :=
  if bytes.isEmpty then .error (.unterminatedGroup outermost)
  else
    match _h : Token.read bytes with
    | .error e => .error e
    | .ok (.field _, rest) => findGroupEnd outermost inner around rest
    | .ok (.groupStart n, rest) => findGroupEnd outermost n (inner :: around) rest
    | .ok (.groupEnd n, rest) =>
      if n ≠ inner then .error (.mismatchedGroupEnd inner n)
      else
        match around with
        | [] => .ok (bytes, rest)
        | next :: around => findGroupEnd outermost next around rest
termination_by bytes.length
decreasing_by all_goals exact Token.length_read ‹_›

theorem length_findGroupEnd {outermost inner : Nat} {around : List Nat} {bytes tag rest : List UInt8}
    (h : findGroupEnd outermost inner around bytes = .ok (tag, rest)) : rest.length < bytes.length := by
  fun_induction findGroupEnd outermost inner around bytes with
  | case1 => simp at h
  | case2 => simp_all
  | case3 inner around bytes hne f rest' hr ih => exact Nat.lt_trans (ih h) (Token.length_read hr)
  | case4 inner around bytes hne n rest' hr ih => exact Nat.lt_trans (ih h) (Token.length_read hr)
  | case5 => simp at h
  | case6 inner bytes hne n rest' hr =>
    have := Token.length_read hr
    simp_all
  | case7 inner bytes hne n rest' hr hn next around ih => exact Nat.lt_trans (ih h) (Token.length_read hr)

/-- The body of the group `number`, whose start tag has been read, and the bytes behind its end tag. -/
def readGroup (number : Nat) (bytes : List UInt8) : Except Fault (List UInt8 × List UInt8) :=
  (findGroupEnd number number [] bytes).map fun r => (bytes.take (bytes.length - r.1.length), r.2)

/-- The field at the front. An end tag closes nothing here, so it is a fault. -/
def readField (bytes : List UInt8) : Except Fault (Field × List UInt8) :=
  match Token.read bytes with
  | .error e => .error e
  | .ok (.field f, rest) => .ok (f, rest)
  | .ok (.groupStart n, rest) => (readGroup n rest).map fun r => (⟨n, .group r.1⟩, r.2)
  | .ok (.groupEnd n, _) => .error (.mismatchedGroupEnd 0 n)

theorem length_readField {bytes rest : List UInt8} {f : Field} (h : readField bytes = .ok (f, rest)) :
    rest.length < bytes.length := by
  unfold readField at h
  split at h
  · cases h
  · rename_i hr
    cases h
    exact Token.length_read hr
  · rename_i n rest' hr
    obtain ⟨g, hg, he⟩ := map_eq_ok.1 h
    obtain ⟨r, hr', rfl⟩ := map_eq_ok.1 hg
    cases he
    exact Nat.lt_trans (length_findGroupEnd hr') (Token.length_read hr)
  · cases h

def fieldReader : Reader Field := ⟨readField, length_readField⟩

/-- The fields of a message up to the first fault. -/
def fields (bytes : List UInt8) : Reading Field := fieldReader.all bytes

end TraceTables.Wire
