import MetalNes.Words

namespace MetalNes

/-- A C string: the bytes before its terminating zero. -/
abbrev Str := List U8

namespace CStrings

def slash : U8 := 0x2F

/-- A call of strtok for the pieces between slashes: the piece it finds in what is
left of the string, and what is left behind that. -/
def strtok (s : Str) : Option Str × Str :=
  let token := s.dropWhile (· = slash)
  if token = [] then (none, [])
  else (some (token.takeWhile (· ≠ slash)), (token.dropWhile (· ≠ slash)).tail)

def names (s : Str) : List Str := (s.splitOn slash).filter (· ≠ [])

theorem names_slash (s : Str) : names (slash :: s) = names s := by
  rw [names, List.splitOn_cons_eq_if_modifyHead, if_pos BEq.rfl]
  rfl

theorem names_dropWhile (s : Str) : names (s.dropWhile (· = slash)) = names s := by
  induction s with
  | nil => rfl
  | cons c s ih =>
      by_cases hc : c = slash
      · rw [List.dropWhile_cons_of_pos (by simpa using hc), ih, hc, names_slash]
      · rw [List.dropWhile_cons_of_neg (by simpa using hc)]

theorem splitOn_slash (s : Str) : ∃ rest, s.splitOn slash = s.takeWhile (· ≠ slash) :: rest ∧
    rest.filter (· ≠ []) = names (s.dropWhile (· ≠ slash)).tail := by
  induction s with
  | nil => exact ⟨[], rfl, rfl⟩
  | cons c s ih =>
      rw [List.splitOn_cons_eq_if_modifyHead]
      by_cases hc : c = slash
      · rw [if_pos (by rw [hc]; exact BEq.rfl), List.takeWhile_cons_of_neg (by simpa using hc),
          List.dropWhile_cons_of_neg (by simpa using hc)]
        exact ⟨s.splitOn slash, rfl, rfl⟩
      · obtain ⟨rest, hs, hrest⟩ := ih
        rw [if_neg (by simpa using hc), hs, List.takeWhile_cons_of_pos (by simpa using hc),
          List.dropWhile_cons_of_pos (by simpa using hc)]
        exact ⟨rest, rfl, hrest⟩

theorem ne_slash_of_token {s t : Str} {c : U8} (h : s.dropWhile (· = slash) = c :: t) : c ≠ slash := by
  intro hc
  have hhead := List.head?_dropWhile_not (· = slash) s
  rw [h] at hhead
  simp [hc] at hhead

theorem strtok_names (s : Str) : (names s = [] ∧ strtok s = (none, [])) ∨
    ∃ n rest, strtok s = (some n, rest) ∧ names s = n :: names rest := by
  rw [strtok, ← names_dropWhile s]
  cases ht : s.dropWhile (· = slash) with
  | nil => exact Or.inl ⟨rfl, rfl⟩
  | cons c t =>
      have hc := ne_slash_of_token ht
      obtain ⟨rest, hs, hrest⟩ := splitOn_slash (c :: t)
      have hne : (c :: t).takeWhile (· ≠ slash) ≠ [] := by
        rw [List.takeWhile_cons_of_pos (by simpa using hc)]
        exact List.cons_ne_nil _ _
      refine Or.inr ⟨_, _, if_neg (List.cons_ne_nil c t), ?_⟩
      rw [names, hs, List.filter_cons_of_pos (by simpa using hne), hrest]

theorem names_of_strtok {s n rest : Str} (h : strtok s = (some n, rest)) : names s = n :: names rest := by
  rcases strtok_names s with ⟨-, hs⟩ | ⟨m, rest', hs, hnames⟩
  · cases h.symm.trans hs
  · cases h.symm.trans hs
    exact hnames

theorem names_of_strtok_none {s rest : Str} (h : strtok s = (none, rest)) : names s = [] := by
  rcases strtok_names s with ⟨hs, -⟩ | ⟨m, rest', hs, -⟩
  · exact hs
  · cases h.symm.trans hs

theorem strtok_of_names {path n : Str} {ns : List Str} (h : names path = n :: ns) :
    path ≠ [slash] ∧ ∃ rest, strtok path = (some n, rest) ∧ names rest = ns := by
  refine ⟨?_, ?_⟩
  · rintro rfl
    cases h
  · rcases strtok_names path with ⟨hnil, -⟩ | ⟨m, rest, hpath, hnames⟩
    · cases h.symm.trans hnil
    · obtain ⟨rfl, rfl⟩ := List.cons.inj (h.symm.trans hnames)
      exact ⟨rest, hpath, rfl⟩

theorem strtok_of_nil {s : Str} (h : names s = []) : strtok s = (none, []) := by
  rcases strtok_names s with ⟨-, hs⟩ | ⟨m, rest, -, hnames⟩
  · exact hs
  · cases h.symm.trans hnames

theorem mem_of_strtok {s n rest : Str} (h : strtok s = (some n, rest)) {c : U8} (hc : c ∈ n) : c ∈ s := by
  simp only [strtok] at h
  split at h
  · cases h
  · cases h
    exact (List.dropWhile_sublist _).subset ((List.takeWhile_sublist _).subset hc)

def behind (s : Str) : Str := (s.dropWhile (· = slash)).dropWhile (· ≠ slash)

theorem strtok_some {s n rest : Str} (h : strtok s = (some n, rest)) :
    (∃ front, s = front ++ n ++ behind s) ∧ n ≠ [] ∧ slash ∉ n ∧
      (behind s = [] ∧ rest = [] ∨ behind s = slash :: rest) := by
  simp only [strtok] at h
  split at h
  · cases h
  · next hne =>
      obtain ⟨rfl, rfl⟩ : _ = n ∧ (behind s).tail = rest := by
        injection h with hn hrest
        exact ⟨Option.some.inj hn, hrest⟩
      obtain ⟨c, t, htoken⟩ := List.exists_cons_of_ne_nil hne
      have hc := ne_slash_of_token htoken
      refine ⟨⟨s.takeWhile (· = slash), ?_⟩, ?_, ?_, ?_⟩
      · rw [List.append_assoc, behind, List.takeWhile_append_dropWhile, List.takeWhile_append_dropWhile]
      · rw [htoken, List.takeWhile_cons_of_pos (by simpa using hc)]
        exact List.cons_ne_nil _ _
      · intro hmem
        have hnot := List.all_eq_true.mp List.all_takeWhile _ hmem
        simp at hnot
      · cases hbehind : behind s with
        | nil => exact Or.inl ⟨rfl, rfl⟩
        | cons d r =>
            have hhead := List.head?_dropWhile_not (· ≠ slash) (s.dropWhile (· = slash))
            have hd : (s.dropWhile (· = slash)).dropWhile (· ≠ slash) = d :: r := hbehind
            rw [hd] at hhead
            have hslash : d = slash := by simpa using hhead
            exact Or.inr (by rw [hslash]; rfl)

end CStrings

end MetalNes
