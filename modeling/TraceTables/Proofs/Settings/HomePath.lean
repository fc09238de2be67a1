import Mathlib.Data.List.DropRight
import TraceTables.Settings.Disk

/-! Paths behind a tilde. What stands there is joined to the home directory, so it lies below that as long as it is
relative. A second slash makes it absolute, and then it stands alone. -/

namespace TraceTables

namespace Text

theorem rdropWhile_cons {c : Char} (hc : isBlank c = false) (cs : List Char) :
    (c :: cs).rdropWhile isBlank = c :: cs.rdropWhile isBlank := by
  unfold List.rdropWhile
  rw [List.reverse_cons, List.dropWhile_append]
  split
  · rename_i hnil
    rw [List.isEmpty_iff.1 hnil]
    simp [hc]
  · simp

theorem rdropWhile_append {after : List Char} (ha : ∀ b ∈ after, isBlank b = true) (cs : List Char) :
    (cs ++ after).rdropWhile isBlank = cs.rdropWhile isBlank := by
  unfold List.rdropWhile
  rw [List.reverse_append, List.dropWhile_append_of_pos fun b hb => ha b (List.mem_reverse.1 hb)]

/-- Of a text that begins with a character behind blanks, only blanks at the end are lost. -/
theorem trim_eq {before after : List Char} {c : Char} (hb : ∀ b ∈ before, isBlank b = true) (hc : isBlank c = false)
    (ha : ∀ b ∈ after, isBlank b = true) (cs : List Char) :
    trim (before ++ c :: (cs ++ after)) = c :: cs.rdropWhile isBlank := by
  calc
    trim (before ++ c :: (cs ++ after)) = ((c :: (cs ++ after)).dropWhile isBlank).rdropWhile isBlank := by
      rw [trim, List.dropWhile_append_of_pos hb, List.rdropWhile]
    _ = (c :: (cs ++ after)).rdropWhile isBlank := by rw [List.dropWhile_cons_of_neg (by simp [hc])]
    _ = c :: cs.rdropWhile isBlank := by rw [rdropWhile_cons hc, rdropWhile_append ha]

end Text

namespace Settings

/-- The names on a path. Empty ones lead nowhere, nor do single dots. -/
def names (path : String) : List String := (FileTree.splitPath path).filter fun name => name ≠ "" && name ≠ "."

/-- The parts of a path: the root, if it starts there, and the names. A single dot counts at the start only. -/
def components (path : String) : List String :=
  if isAbsolute path then "/" :: names path
  else if (FileTree.splitPath path).head? = some "." then "." :: names path
  else names path

theorem names_append_slash (a b : String) : names (a ++ "/" ++ b) = names a ++ names b := by
  have h : (a ++ "/" ++ b).toList = a.toList ++ '/' :: b.toList := by simp
  simp only [names, FileTree.splitPath, h, List.splitOn_append_cons_self, List.map_append, List.filter_append]

/-- A slash at the end of the base keeps its last name apart from what is put behind it. -/
theorem names_append_of_getLast? {base : String} (h : base.toList.getLast? = some '/') (path : String) :
    names (base ++ path) = names base ++ names path := by
  obtain ⟨cs, hcs⟩ := List.getLast?_eq_some_iff.1 h
  have hbase : base = String.ofList cs ++ "/" ++ "" := by
    rw [← String.toList_inj]
    simpa using hcs
  have hwhole : base ++ path = String.ofList cs ++ "/" ++ path := by rw [hbase]; simp
  have hnil : names "" = [] := by decide
  rw [hwhole, names_append_slash, hbase, names_append_slash, hnil, List.append_nil]

theorem names_join {base path : String} (h : isAbsolute path = false) :
    names (join base path) = names base ++ names path := by
  unfold join
  rw [h, if_neg Bool.false_ne_true]
  split
  · rename_i hend
    rw [Bool.or_eq_true, String.isEmpty_iff, decide_eq_true_eq] at hend
    obtain rfl | hlast := hend
    · rfl
    · exact names_append_of_getLast? hlast path
  · exact names_append_slash base path

theorem isAbsolute_append {base : String} (h : isAbsolute base = true) (path : String) :
    isAbsolute (base ++ path) = true := by
  unfold isAbsolute at h ⊢
  rw [decide_eq_true_eq] at h
  rw [String.toList_append, List.head?_append, h]
  rfl

theorem isAbsolute_join {base : String} (h : isAbsolute base = true) (path : String) :
    isAbsolute (join base path) = true := by
  unfold join
  split
  · assumption
  split
  · exact isAbsolute_append h path
  · exact isAbsolute_append (isAbsolute_append h "/") path

theorem components_join {base path : String} (hb : isAbsolute base = true) (hp : isAbsolute path = false) :
    components (join base path) = components base ++ names path := by
  rw [components, if_pos (isAbsolute_join hb path), components, if_pos hb, names_join hp, List.cons_append]

theorem expandHome_tilde (home : String) {slash : Char} (hs : slash = '/' ∨ slash = '\\') (rest : List Char) :
    expandHome (some home) (String.ofList ('~' :: slash :: rest)) = join home (String.ofList rest) := by
  obtain rfl | rfl := hs <;> simp [expandHome]

theorem expand_of_isAbsolute {s : Surroundings} {text path : String}
    (h : expandHome s.home? (String.ofList (Text.trim text.toList)) = path) (hp : isAbsolute path = true) :
    expand s text = path := by
  unfold expand
  simp only [h]
  split
  · rfl
  · rw [join, if_pos hp]

/-- Behind a tilde and one slash or backslash the home directory is extended by the text up to the blanks at its end,
unless that text begins with a slash itself. Then it is the path, whatever the home directory is. So the path lies below
the home directory if and only if the text is relative, or happens to lead there. -/
theorem expand_tilde {home : String} (hhome : isAbsolute home = true) (directory? : Option String) {slash : Char}
    (hs : slash = '/' ∨ slash = '\\') {before after : String} (hb : ∀ c ∈ before.toList, Text.isBlank c = true)
    (ha : ∀ c ∈ after.toList, Text.isBlank c = true) (text : String) :
    let rest := String.ofList (text.toList.rdropWhile Text.isBlank)
    let path := expand ⟨some home, directory?⟩ (before ++ "~".push slash ++ text ++ after)
    (isAbsolute rest = false → path = join home rest ∧ components path = components home ++ names rest) ∧
      (isAbsolute rest = true → path = rest) ∧
      (components home <+: components path ↔ isAbsolute rest = false ∨ components home <+: components rest) := by
  intro rest path
  have hslash : Text.isBlank slash = false := by obtain rfl | rfl := hs <;> decide
  have htext : (before ++ "~".push slash ++ text ++ after).toList =
      before.toList ++ '~' :: (slash :: text.toList ++ after.toList) := by simp
  have hpath : path = join home rest := by
    refine expand_of_isAbsolute ?_ (isAbsolute_join hhome rest)
    rw [htext, Text.trim_eq hb (by decide) ha, Text.rdropWhile_cons hslash, expandHome_tilde home hs]
  have habove (h : isAbsolute rest = true) : path = rest := by rw [hpath, join, if_pos h]
  have hbelow (h : isAbsolute rest = false) : components path = components home ++ names rest := by
    rw [hpath, components_join hhome h]
  refine ⟨fun h => ⟨hpath, hbelow h⟩, habove, ?_⟩
  cases h : isAbsolute rest with
  | false =>
    rw [hbelow h]
    exact iff_of_true (List.prefix_append _ _) (Or.inl rfl)
  | true =>
    rw [habove h]
    simp

/-- Blanks around the text and inside it, and names that lead nowhere or up. -/
theorem expand_tilde_blanks :
    let path := expand ⟨some "/home/u/", some "/run"⟩ ("\t" ++ "~".push '/' ++ " a/.//../b " ++ "\u3000\n")
    isAbsolute "/home/u/" = true ∧ (∀ c ∈ "\t".toList, Text.isBlank c = true) ∧
      (∀ c ∈ "\u3000\n".toList, Text.isBlank c = true) ∧ path = "/home/u/ a/.//../b" ∧
      components path = ["/", "home", "u"] ++ [" a", "..", "b"] := by
  intro path
  have hhome : isAbsolute "/home/u/" = true := by decide +kernel
  have hb : ∀ c ∈ "\t".toList, Text.isBlank c = true := List.all_eq_true.1 (by decide +kernel)
  have ha : ∀ c ∈ "\u3000\n".toList, Text.isBlank c = true := List.all_eq_true.1 (by decide +kernel)
  obtain ⟨hbelow, -, -⟩ := expand_tilde hhome (some "/run") (Or.inl rfl) hb ha " a/.//../b "
  obtain ⟨hpath, hparts⟩ := hbelow (by decide +kernel)
  refine ⟨hhome, hb, ha, hpath.trans ?_, hparts.trans ?_⟩ <;> decide +kernel

/-- A second slash leads away from the home directory. -/
theorem expand_tilde_elsewhere :
    isAbsolute "/home/u" = true ∧ expand ⟨some "/home/u", some "/run"⟩ "~//etc/passwd" = "/etc/passwd" ∧
      ¬ components "/home/u" <+: components (expand ⟨some "/home/u", some "/run"⟩ "~//etc/passwd") := by
  decide +kernel

end Settings

end TraceTables
