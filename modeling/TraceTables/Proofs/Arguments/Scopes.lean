import Mathlib.Data.List.Infix
import TraceTables.Arguments.KeyTrail

/-! Scopes on a key open and close like brackets. While scopes are open, the key is the one at the start with what each
of them puts behind it, from the outermost to the innermost. The marks that are kept are the lengths of the keys in
between, so leaving a scope cuts back to the key in which it was entered. -/

namespace TraceTables.Arguments

/-! ## Cutting a text -/

/-- A text is cut to what it begins with, if this has the right length. -/
theorem cut_eq_some_iff {n : Nat} {cs kept : List Char} :
    cut n cs = some kept ↔ kept <+: cs ∧ (String.ofList kept).utf8ByteSize = n := by
  constructor
  · intro h
    fun_induction cut n cs generalizing kept with
    | case1 cs =>
      cases h
      exact ⟨List.nil_prefix, by simp⟩
    | case2 => cases h
    | case3 n c cs hc ih =>
      obtain ⟨rest, hr, rfl⟩ := Option.map_eq_some_iff.1 h
      obtain ⟨hbegins, hsize⟩ := ih hr
      refine ⟨List.cons_prefix_cons.2 ⟨rfl, hbegins⟩, ?_⟩
      rw [String.ofList_cons, String.utf8ByteSize_append, String.utf8ByteSize_singleton, hsize]
      omega
    | case4 => cases h
  · rintro ⟨⟨rest, rfl⟩, rfl⟩
    exact cut_append kept rest

/-- A key is cut at a mark to another key: both parts begin with those of the other, and these have the lengths of the
mark. -/
structure Key.CutsTo (k : Key) (m : Mark) (kept : Key) : Prop where
  flat : kept.flat.toList <+: k.flat.toList
  full : kept.full.toList <+: k.full.toList
  mark : kept.mark = m

theorem Key.cut_eq_some_iff {k kept : Key} {m : Mark} : k.cut m = some kept ↔ k.CutsTo m kept := by
  unfold Key.cut
  constructor
  · intro h
    obtain ⟨flat, hflat, h⟩ := Option.bind_eq_some_iff.1 h
    obtain ⟨full, hfull, h⟩ := Option.bind_eq_some_iff.1 h
    cases h
    obtain ⟨hflat, hsize⟩ := Arguments.cut_eq_some_iff.1 hflat
    obtain ⟨hfull, hsize'⟩ := Arguments.cut_eq_some_iff.1 hfull
    exact ⟨by simpa using hflat, by simpa using hfull, by simp [Key.mark, hsize, hsize']⟩
  · rintro ⟨hflat, hfull, rfl⟩
    have hcut (s : String) {cs : List Char} (h : s.toList <+: cs) : Arguments.cut s.utf8ByteSize cs = some s.toList :=
      Arguments.cut_eq_some_iff.2 ⟨h, by rw [String.ofList_toList]⟩
    simp [Key.mark, hcut kept.flat hflat, hcut kept.full hfull]

/-! ## What a scope adds -/

/-- A scope below a key: of a member, of an array element, or of a field, which has an index if it is repeated. -/
inductive Scope where
  | member (name : String)
  | element (index : Nat)
  | field (name : String) (index : Option Nat)
deriving DecidableEq

/-- A name with a dot in front, unless there is nothing for it to stand behind. -/
def nameBehind (text name : String) : String := if text = "" then name else "." ++ name

def bracketed (index : Nat) : String := "[" ++ toString index ++ "]"

namespace Scope

/-- What a scope puts behind a flat key. -/
def addsFlat (flat : String) : Scope → String
  | member name => nameBehind flat name
  | element _ => ""
  | field name _ => nameBehind flat name

/-- What a scope puts behind a full key. -/
def addsFull (full : String) : Scope → String
  | member name => nameBehind full name
  | element index => bracketed index
  | field name none => nameBehind full name
  | field name (some index) => nameBehind full name ++ bracketed index

end Scope

/-- The key when scopes are open below `k`, the innermost first. -/
def Key.within (k : Key) : List Scope → Key
  | [] => k
  | s :: around =>
    ⟨(k.within around).flat ++ s.addsFlat (k.within around).flat,
      (k.within around).full ++ s.addsFull (k.within around).full⟩

theorem joinName_eq (path name : String) : joinName path name = path ++ nameBehind path name := by
  unfold joinName nameBehind
  by_cases h : path = ""
  · simp [h]
  · simp [h, String.append_assoc]

theorem joinIndex_eq (path : String) (index : Nat) : joinIndex path index = path ++ bracketed index := by
  simp [joinIndex, bracketed, String.append_assoc]

/-! ## A run -/

inductive Move where
  | enter (s : Scope)
  | leave
deriving DecidableEq

namespace KeyTrail

def enterScope (t : KeyTrail) : Scope → KeyTrail
  | .member name => t.enterMember name
  | .element index => t.enterElement index
  | .field name index => t.enterField name index

def move (t : KeyTrail) : Move → Option KeyTrail
  | .enter s => some (t.enterScope s)
  | .leave => t.leave

def run (t : KeyTrail) (moves : List Move) : Option KeyTrail := moves.foldlM move t

theorem run_append (t : KeyTrail) (moves more : List Move) :
    t.run (moves ++ more) = (t.run moves).bind (run · more) := List.foldlM_append

theorem run_singleton (t : KeyTrail) (m : Move) : t.run [m] = t.move m := by
  simp [run]

end KeyTrail

/-- The scopes that are open after a move, the innermost first. None can be left if none is open. -/
def nest (scopes : List Scope) : Move → Option (List Scope)
  | .enter s => some (s :: scopes)
  | .leave =>
    match scopes with
    | [] => none
    | _ :: around => some around

/-- The scopes that moves leave open besides those that were open before and stay so. -/
def nestFrom (scopes : List Scope) (moves : List Move) : Option (List Scope) := moves.foldlM nest scopes

/-- The scopes that are open after some moves, unless one of these leaves a scope where none is open. -/
def openScopes (moves : List Move) : Option (List Scope) := nestFrom [] moves

/-- No scope is left that has not been entered before. -/
def WellNested (moves : List Move) : Prop := (openScopes moves).isSome = true

theorem nestFrom_append (scopes : List Scope) (moves more : List Move) :
    nestFrom scopes (moves ++ more) = (nestFrom scopes moves).bind (nestFrom · more) := List.foldlM_append

/-- What is open around a run is not touched by it. -/
theorem nestFrom_around {scopes scopes' : List Scope} {moves : List Move} (h : nestFrom scopes moves = some scopes')
    (around : List Scope) : nestFrom (scopes ++ around) moves = some (scopes' ++ around) := by
  induction moves generalizing scopes with
  | nil =>
    cases h
    rfl
  | cons m moves ih =>
    unfold nestFrom at h ih ⊢
    rw [List.foldlM_cons] at h ⊢
    obtain ⟨next, hnext, h⟩ := Option.bind_eq_some_iff.1 h
    have hstep : nest (scopes ++ around) m = some (next ++ around) := by
      cases m with
      | enter s =>
        cases hnext
        rfl
      | leave =>
        cases scopes with
        | nil => cases hnext
        | cons s scopes =>
          cases hnext
          rfl
    rw [hstep]
    exact ih h

namespace KeyTrail

/-- The trail with scopes open below `k`. -/
def within (k : Key) (scopes : List Scope) : KeyTrail :=
  ⟨k.within scopes, scopes.tails.map fun around => (k.within around.tail).mark⟩

/-- An entered scope puts the two texts behind the key that are its own. -/
theorem enterScope_eq (t : KeyTrail) (s : Scope) :
    t.enterScope s = t.enter ⟨t.key.flat ++ s.addsFlat t.key.flat, t.key.full ++ s.addsFull t.key.full⟩ := by
  cases s with
  | member name => simp [enterScope, enterMember, Key.member, joinName_eq, Scope.addsFlat, Scope.addsFull]
  | element index => simp [enterScope, enterElement, Key.element, joinIndex_eq, Scope.addsFlat, Scope.addsFull]
  | field name index =>
    cases index <;>
      simp [enterScope, enterField, Key.field, Key.member, Key.element, joinName_eq, joinIndex_eq, Scope.addsFlat,
        Scope.addsFull, String.append_assoc]

theorem enterScope_within (k : Key) (s : Scope) (scopes : List Scope) :
    (within k scopes).enterScope s = within k (s :: scopes) := by
  rw [enterScope_eq]
  rfl

theorem leave_within (k : Key) (s : Scope) (scopes : List Scope) :
    (within k (s :: scopes)).leave = some (within k scopes) := by
  rw [← enterScope_within, enterScope_eq, leave_enter]

/-- The scope of the whole key is left as well, and no mark is kept then. -/
theorem leave_start (k : Key) : (start k).leave = some ⟨k, []⟩ := by
  have hcut : k.cut k.mark = some k := Key.cut_eq_some_iff.2 ⟨List.prefix_refl _, List.prefix_refl _, rfl⟩
  simp [start, leave, hcut]

/-- A move leads from one state of this form to another. -/
theorem move_within {scopes scopes' : List Scope} {m : Move} (h : nest scopes m = some scopes') (k : Key) :
    (within k scopes).move m = some (within k scopes') := by
  cases m with
  | enter s =>
    cases h
    exact congrArg some (enterScope_within k s scopes)
  | leave =>
    cases scopes with
    | nil => cases h
    | cons s scopes =>
      cases h
      exact leave_within k s _

theorem run_within {scopes scopes' : List Scope} {moves : List Move} (h : nestFrom scopes moves = some scopes')
    (k : Key) : (within k scopes).run moves = some (within k scopes') := by
  induction moves generalizing scopes with
  | nil =>
    cases h
    rfl
  | cons m moves ih =>
    unfold nestFrom run at *
    rw [List.foldlM_cons] at h ⊢
    obtain ⟨next, hnext, h⟩ := Option.bind_eq_some_iff.1 h
    rw [move_within hnext k]
    exact ih h

end KeyTrail

/-! ## Releasing -/

theorem Key.isPrefix_within (k : Key) {around scopes : List Scope} (h : around <:+ scopes) :
    (k.within around).flat.toList <+: (k.within scopes).flat.toList ∧
      (k.within around).full.toList <+: (k.within scopes).full.toList := by
  obtain ⟨inner, rfl⟩ := h
  induction inner with
  | nil => exact ⟨List.prefix_refl _, List.prefix_refl _⟩
  | cons s inner ih =>
    refine ⟨ih.1.trans ?_, ih.2.trans ?_⟩ <;>
      · rw [List.cons_append, within, String.toList_append]
        exact List.prefix_append _ _

/-- All scopes that are open are left, one after the other. -/
theorem nestFrom_leave_all (scopes : List Scope) :
    nestFrom scopes (List.replicate scopes.length .leave) = some [] := by
  induction scopes with
  | nil => rfl
  | cons s scopes ih => exact ih

theorem wellNested_of_isPrefix {moves before : List Move} (h : WellNested moves) (hb : before <+: moves) :
    WellNested before := by
  obtain ⟨rest, rfl⟩ := hb
  unfold WellNested openScopes at *
  rw [nestFrom_append] at h
  exact Option.isSome_of_isSome_bind h

/-- At any point of a run in which scopes are entered and left one inside the other, the key is the one at the start
with what the open scopes add. Each mark that is kept cuts it, between two characters in both parts, to the key below
some of these scopes. A scope that is entered then and left, whatever is entered and left inside of it, gives back all
that was there, and leaving all scopes, and that of the whole key, gives back the key at the start. -/
theorem scopes_unwind (k : Key) {moves before : List Move} (h : WellNested moves) (hb : before <+: moves) :
    ∃ scopes t, openScopes before = some scopes ∧ (KeyTrail.start k).run before = some t ∧
      t.key = k.within scopes ∧
      (∀ m ∈ t.marks, ∃ around, around <:+ scopes ∧ t.key.cut m = some (k.within around) ∧
        t.key.CutsTo m (k.within around)) ∧
      (∀ s inner, openScopes inner = some [] →
        (KeyTrail.start k).run (before ++ .enter s :: (inner ++ [.leave])) = some t) ∧
      (KeyTrail.start k).run (before ++ List.replicate (scopes.length + 1) .leave) = some ⟨k, []⟩ := by
  obtain ⟨scopes, hs⟩ := Option.isSome_iff_exists.1 (wellNested_of_isPrefix h hb)
  have hrun : (KeyTrail.start k).run before = some (.within k scopes) := KeyTrail.run_within hs k
  refine ⟨scopes, .within k scopes, hs, hrun, rfl, ?_, ?_, ?_⟩
  · intro m hm
    obtain ⟨around, haround, rfl⟩ := List.mem_map.1 hm
    have hsuffix : around.tail <:+ scopes := (List.tail_suffix around).trans ((List.mem_tails _ _).1 haround)
    obtain ⟨hflat, hfull⟩ := k.isPrefix_within hsuffix
    have hcuts : (k.within scopes).CutsTo (k.within around.tail).mark (k.within around.tail) := ⟨hflat, hfull, rfl⟩
    exact ⟨around.tail, hsuffix, Key.cut_eq_some_iff.2 hcuts, hcuts⟩
  · intro s inner hinner
    have hback : nestFrom scopes (.enter s :: (inner ++ [.leave])) = some scopes := by
      have hinside : nestFrom (s :: scopes) inner = some (s :: scopes) := nestFrom_around hinner (s :: scopes)
      calc
        nestFrom scopes (.enter s :: (inner ++ [.leave])) = nestFrom (s :: scopes) (inner ++ [.leave]) := rfl
        _ = some scopes := by
          rw [nestFrom_append, hinside]
          rfl
    rw [KeyTrail.run_append, hrun]
    exact KeyTrail.run_within hback k
  · have hall : (KeyTrail.within k scopes).run (List.replicate scopes.length .leave) = some (.start k) :=
      KeyTrail.run_within (nestFrom_leave_all scopes) k
    rw [KeyTrail.run_append, hrun, List.replicate_succ', Option.bind_some, KeyTrail.run_append, hall, Option.bind_some,
      KeyTrail.run_singleton]
    exact KeyTrail.leave_start k

/-- Two of the names are empty and one is not ASCII. The flat key is empty at the start and the full key is not, so that
a dot is left out in one of them only. -/
theorem scopes_unwind_empty_names :
    let k : Key := ⟨"", "a]"⟩
    let before : List Move := [.enter (.member ""), .enter (.element 7), .enter (.field "é." (some 2)), .leave,
      .enter (.field "" (some 0))]
    let moves := before ++ [.leave, .enter (.member "x[")]
    WellNested moves ∧ before <+: moves ∧
      (∃ t, (KeyTrail.start k).run before = some t ∧ t.key = ⟨"", "a].[7].[0]"⟩) ∧
      (KeyTrail.start k).run (before ++ List.replicate 4 .leave) = some ⟨k, []⟩ := by
  intro k before moves
  have hnested : WellNested moves := rfl
  have hbefore : before <+: moves := List.prefix_append _ _
  obtain ⟨scopes, t, hs, ht, hk, -, -, hall⟩ := scopes_unwind k hnested hbefore
  have hopen : openScopes before = some [.field "" (some 0), .element 7, .member ""] := rfl
  obtain rfl : [.field "" (some 0), .element 7, .member ""] = scopes := Option.some.inj (hopen.symm.trans hs)
  exact ⟨hnested, hbefore, ⟨t, ht, hk.trans (by decide)⟩, hall⟩

end TraceTables.Arguments
