import MetalNes.Segments
import Mathlib.Data.List.Nodup

namespace MetalNes.Segments

variable {α : Type} {stop : α}

theorem nodup_neighbours {a c : α} {xs ys : List α} (h : (xs ++ a :: c :: ys).Nodup) :
    c ≠ a ∧ c ∉ xs ++ a :: ys ∧ a ∉ xs ++ ys := by
  have ha := (List.nodup_middle.mp h).notMem
  have hc : c ∉ xs ++ a :: ys := by
    rw [List.append_cons] at h
    rw [List.append_cons]
    exact (List.nodup_middle.mp h).notMem
  exact ⟨fun heq => hc (heq ▸ List.mem_append_cons_self), hc, fun hmem => ha (mem_inserted.mpr (Or.inr hmem))⟩

section Path

variable {link link' : α → α} {p q t : α} {xs ys : List α}

theorem Path.nodup (h : Path stop link p xs stop) : xs.Nodup := by
  induction xs generalizing p with
  | nil => exact List.nodup_nil
  | cons a rest ih =>
      obtain ⟨rfl, hne, hrest⟩ := h
      refine List.nodup_cons.mpr ⟨fun hmem => ?_, ih hrest⟩
      obtain ⟨pre, post, rfl⟩ := List.append_of_mem hmem
      obtain ⟨m, -, rfl, hm, hpost⟩ := path_append.mp hrest
      have hlength := congrArg List.length (Path.unique hrest hpost)
      simp only [List.length_append, List.length_cons] at hlength
      omega

theorem Path.link_mem (h : Path stop link p xs q) {a : α} (ha : a ∈ xs) : link a ∈ xs ∨ link a = q := by
  obtain ⟨pre, post, rfl⟩ := List.append_of_mem ha
  obtain ⟨m, -, rfl, -, hpost⟩ := path_append.mp h
  cases post with
  | nil => exact Or.inr hpost
  | cons c rest =>
      rw [hpost.1]
      exact Or.inl (List.mem_append_right pre (List.mem_cons_of_mem m List.mem_cons_self))

theorem Path.unlink [DecidableEq α] (h : Path stop link p (xs ++ t :: ys) q) (ht : t ∉ xs ++ ys) (hq : q ≠ t)
    (hlink : ∀ a ∈ xs ++ ys, link' a = if link a = t then link t else link a) :
    Path stop link' (if p = t then link t else p) (xs ++ ys) q := by
  induction xs generalizing p with
  | nil =>
      obtain ⟨rfl, -, hys⟩ := h
      rw [if_pos rfl]
      refine hys.congr fun a ha => ?_
      rw [hlink a ha, if_neg]
      intro hloop
      rcases hys.link_mem ha with hmem | hend
      · exact ht (hloop ▸ hmem)
      · exact hq (hend.symm.trans hloop)
  | cons a rest ih =>
      obtain ⟨rfl, hne, hrest⟩ := h
      rw [if_neg fun heq : p = t => ht (heq ▸ List.mem_cons_self)]
      refine ⟨rfl, hne, ?_⟩
      rw [hlink p List.mem_cons_self]
      exact ih hrest (fun hmem => ht (List.mem_cons_of_mem p hmem))
        fun c hc => hlink c (List.mem_cons_of_mem p hc)

end Path

theorem Segment.reverse {next prev : α → α} {b p l q : α} {xs : List α}
    (h : Segment stop next prev b p xs l q) : Segment stop prev next q l xs.reverse p b := by
  obtain ⟨hforth, hback⟩ := segment_iff_paths.mp h
  refine segment_iff_paths.mpr ⟨hback, ?_⟩
  rw [List.reverse_reverse]
  exact hforth

/-- A list with two links, from its first node to its end. -/
def Whole (stop : α) (next prev : α → α) (p : α) (xs : List α) : Prop :=
  ∃ l, Segment stop next prev stop p xs l stop

section Whole

variable {next prev next' prev' : α → α} {p t n a : α} {xs ys : List α}

theorem whole_nil_iff : Whole stop next prev p [] ↔ p = stop := by
  constructor
  · rintro ⟨l, h, -⟩
    exact h
  · rintro rfl
    exact ⟨p, rfl, rfl⟩

theorem Whole.path (h : Whole stop next prev p xs) : Path stop next p xs stop :=
  (segment_iff_paths.mp h.choose_spec).1

theorem Whole.back_path (h : Whole stop next prev p xs) : ∃ l, Path stop prev l xs.reverse stop :=
  ⟨h.choose, (segment_iff_paths.mp h.choose_spec).2⟩

theorem Whole.nodup (h : Whole stop next prev p xs) : xs.Nodup := h.path.nodup

theorem Whole.stop_notMem (h : Whole stop next prev p xs) : stop ∉ xs := h.path.ne_stop

theorem Whole.next_mem (h : Whole stop next prev p xs) (ha : a ∈ xs) : next a ∈ xs ∨ next a = stop :=
  h.path.link_mem ha

theorem Whole.prev_mem (h : Whole stop next prev p xs) (ha : a ∈ xs) : prev a ∈ xs ∨ prev a = stop := by
  obtain ⟨l, hback⟩ := h.back_path
  have hlink := hback.link_mem (List.mem_reverse.mpr ha)
  rwa [List.mem_reverse] at hlink

theorem Whole.prev_next (h : Whole stop next prev p xs) (ha : a ∈ xs) (hne : next a ≠ stop) :
    prev (next a) = a := h.choose_spec.prev_next ha hne

theorem Whole.next_prev (h : Whole stop next prev p xs) (ha : a ∈ xs) (hne : prev a ≠ stop) :
    next (prev a) = a := h.choose_spec.reverse.prev_next (List.mem_reverse.mpr ha) hne

theorem Whole.congr (h : Whole stop next prev p xs) (hnext : ∀ a ∈ xs, next' a = next a)
    (hprev : ∀ a ∈ xs, prev' a = prev a) : Whole stop next' prev' p xs :=
  ⟨h.choose, h.choose_spec.congr hnext hprev⟩

theorem Whole.middle_next (h : Whole stop next prev p (xs ++ t :: ys)) : next t = ys.headD stop := by
  obtain ⟨m, -, rfl, -, hys⟩ := path_append.mp h.path
  cases ys with
  | nil => exact hys
  | cons c rest => exact hys.1

theorem Whole.middle_prev (h : Whole stop next prev p (xs ++ t :: ys)) : prev t = xs.reverse.headD stop := by
  have hback : Whole stop prev next h.choose (ys.reverse ++ t :: xs.reverse) := by
    refine ⟨p, ?_⟩
    simpa using h.choose_spec.reverse
  exact hback.middle_next

theorem Whole.start (h : Whole stop next prev p xs) : p = xs.headD stop := by
  cases xs with
  | nil => exact whole_nil_iff.mp h
  | cons c rest => exact h.path.1

variable [DecidableEq α]

theorem Whole.unlink (h : Whole stop next prev p (xs ++ t :: ys))
    (hnext : ∀ a ∈ xs ++ ys, next' a = if a = prev t then next t else next a)
    (hprev : ∀ a ∈ xs ++ ys, prev' a = if a = next t then prev t else prev a) :
    Whole stop next' prev' (if p = t then next t else p) (xs ++ ys) := by
  have ht : t ∈ xs ++ t :: ys := List.mem_append_right xs List.mem_cons_self
  have hall : ∀ a ∈ xs ++ ys, a ∈ xs ++ t :: ys := fun _ ha => mem_inserted.mpr (Or.inr ha)
  have hfresh : t ∉ xs ++ ys := (List.nodup_middle.mp h.nodup).notMem
  have hstop : stop ≠ t := fun heq => h.stop_notMem (heq ▸ ht)
  have hback : Path stop prev h.choose (ys.reverse ++ t :: xs.reverse) stop := by
    simpa using (segment_iff_paths.mp h.choose_spec).2
  refine ⟨if h.choose = t then prev t else h.choose, segment_iff_paths.mpr ⟨?_, ?_⟩⟩
  · refine h.path.unlink hfresh hstop fun a ha => ?_
    have hiff : a = prev t ↔ next a = t := by
      constructor
      · intro heq
        rw [heq]
        exact h.next_prev ht fun hs => h.stop_notMem (hs ▸ heq ▸ hall a ha)
      · intro heq
        rw [← heq]
        exact (h.prev_next (hall a ha) fun hs => hstop (hs ▸ heq)).symm
    simp only [hnext a ha, hiff]
  · rw [List.reverse_append]
    refine hback.unlink (by simpa [and_comm] using hfresh) hstop fun a ha => ?_
    have hmem : a ∈ xs ++ ys := by
      rw [List.mem_append, List.mem_reverse, List.mem_reverse] at ha
      exact List.mem_append.mpr ha.symm
    have hiff : a = next t ↔ prev a = t := by
      constructor
      · intro heq
        rw [heq]
        exact h.prev_next ht fun hs => h.stop_notMem (hs ▸ heq ▸ hall a hmem)
      · intro heq
        rw [← heq]
        exact (h.next_prev (hall a hmem) fun hs => hstop (hs ▸ heq)).symm
    simp only [hprev a hmem, hiff]

theorem Whole.removeAfter {s : α} (h : Whole stop next prev p (xs ++ s :: t :: ys)) (hs : next' s = next t)
    (hnext : ∀ a ∈ xs ++ ys, next' a = next a)
    (hprev : ∀ a ∈ xs ++ s :: ys, prev' a = if a = next t then s else prev a) :
    Whole stop next' prev' p (xs ++ s :: ys) := by
  have hmiddle : Whole stop next prev p ((xs ++ [s]) ++ t :: ys) := by simpa using h
  have hback : prev t = s := by simpa using hmiddle.middle_prev
  have hrest : (xs ++ [s]) ++ ys = xs ++ s :: ys := by simp
  have hfirst : p ≠ t := by
    have hfresh := (List.nodup_middle.mp hmiddle.nodup).notMem
    rw [h.start]
    intro heq
    refine hfresh ?_
    cases xs with
    | nil => exact heq ▸ List.mem_cons_self
    | cons c rest => exact heq ▸ List.mem_cons_self
  have hunlinked : Whole stop next' prev' (if p = t then next t else p) ((xs ++ [s]) ++ ys) := by
    refine hmiddle.unlink (fun a ha => ?_) fun a ha => ?_
    · rw [hback]
      by_cases heq : a = s
      · rw [if_pos heq, heq, hs]
      · rw [if_neg heq]
        exact hnext a (by simp at ha ⊢; tauto)
    · rw [hback]
      exact hprev a (hrest ▸ ha)
  rwa [if_neg hfirst, hrest] at hunlinked

theorem Whole.push (h : Whole stop next prev p xs) (hne : a ≠ stop)
    (hfirst : next' a = p ∧ prev' a = stop) (hnext : ∀ c ∈ xs, next' c = next c)
    (hprev : ∀ c ∈ xs, prev' c = if c = p then a else prev c) : Whole stop next' prev' a (a :: xs) := by
  cases xs with
  | nil =>
      obtain rfl := whole_nil_iff.mp h
      exact ⟨a, rfl, hne, hfirst.2, hfirst.1, rfl⟩
  | cons c rest =>
      have hnodup := List.nodup_cons.mp h.nodup
      obtain ⟨l, rfl, hc, -, hrest⟩ := h
      refine ⟨l, rfl, hne, hfirst.2, ?_⟩
      rw [hfirst.1]
      refine ⟨rfl, hc, ?_, ?_⟩
      · rw [hprev p List.mem_cons_self, if_pos rfl]
      · rw [hnext p List.mem_cons_self]
        refine hrest.congr (fun d hd => hnext d (List.mem_cons_of_mem p hd)) fun d hd => ?_
        rw [hprev d (List.mem_cons_of_mem p hd), if_neg fun heq : d = p => hnodup.1 (heq ▸ hd)]

theorem Whole.insertAfter (h : Whole stop next prev p (xs ++ t :: ys)) (hne : n ≠ stop)
    (hnew : next' n = next t ∧ prev' n = t) (ht : next' t = n) (hnext : ∀ c ∈ xs ++ ys, next' c = next c)
    (hprev : ∀ c ∈ xs ++ t :: ys, prev' c = if c = next t then n else prev c) :
    Whole stop next' prev' p (xs ++ t :: n :: ys) := by
  have hnodup := List.nodup_middle.mp h.nodup
  have hbehind := h.middle_next
  have hend := h.stop_notMem
  have hfront : ∀ c ∈ xs ++ [t], prev' c = prev c := by
    intro c hc
    rw [hprev c (by simp at hc ⊢; tauto), if_neg]
    rintro rfl
    rw [hbehind] at hc
    cases ys with
    | nil => exact hend (by simp at hc ⊢; tauto)
    | cons d rest =>
        simp only [List.headD_cons, List.mem_append, List.mem_singleton] at hc
        rcases hc with hc | rfl
        · exact (List.nodup_append.mp hnodup.of_cons).2.2 d hc d List.mem_cons_self rfl
        · exact hnodup.notMem (List.mem_append_right xs List.mem_cons_self)
  obtain ⟨l, hl⟩ := h
  obtain ⟨k, m, hxs, rfl, htne, htprev, hys⟩ := segment_append.mp hl
  refine ⟨if ys = [] then n else l, segment_append.mpr ⟨k, m, ?_, rfl, htne, ?_, ?_⟩⟩
  · exact hxs.congr (fun c hc => hnext c (List.mem_append_left ys hc))
      fun c hc => hfront c (List.mem_append_left _ hc)
  · rw [hfront m (by simp), htprev]
  · rw [ht]
    refine ⟨rfl, hne, hnew.2, ?_⟩
    rw [hnew.1]
    cases ys with
    | nil => exact ⟨hbehind, rfl⟩
    | cons d rest =>
        obtain ⟨rfl, hd, -, hrest⟩ := hys
        refine ⟨rfl, hd, ?_, ?_⟩
        · rw [hprev _ (by simp), if_pos rfl]
        · rw [hnext _ (by simp), if_neg (List.cons_ne_nil _ _)]
          refine hrest.congr (fun c hc => hnext c (by simp [hc])) fun c hc => ?_
          rw [hprev c (by simp [hc]), if_neg]
          rintro rfl
          simp only [List.nodup_cons, List.nodup_append] at hnodup
          exact hnodup.2.2.1.1 hc

end Whole

end MetalNes.Segments
