import Mathlib.Data.List.TakeWhile
import MetalNes.FatFiles

namespace MetalNes.PathSplit

open Loop CStrings FatFiles

structure Write where
  size : Nat
  index : Nat
  deriving DecidableEq, Repr

def Write.Inside (w : Write) : Prop := w.index < w.size

def writes (size len : Nat) : List Write := (List.range len).map (⟨size, ·⟩)

/-- The terminator that strtok puts behind a piece of the copy, where a slash was. -/
def terminated (path s : Str) : List Write :=
  if behind s = [] then [] else [⟨path.length + 1, path.length - (behind s).length⟩]

structure Naming where
  ret : Option Str
  rest : Str
  written : List Write

def token (path s : Str) (written : List Write) : Naming :=
  ⟨(strtok s).1, (strtok s).2, written ++ terminated path s⟩

def namingBody (path : Str) (v : Naming) : Iter Naming (Option Str × List Write) :=
  let n := token path v.rest v.written
  match n.ret with
  | none => .done (v.ret, n.written)
  | some _ => .next n

structure Split where
  fname : Option Str
  pathto : Option Str
  written : List Write

/-- The strings of fat_fopen: the copy of the path, in which the name is found, and the
block for the directory's path, behind which the terminator of this path goes. -/
def fopenSplit (fuel : Nat) (path : Str) : Option Split :=
  let copied := writes (path.length + 1) (path.length + 1)
  match run (namingBody path) fuel (token path path copied) with
  | none => none
  | some (none, written) => some ⟨none, none, written⟩
  | some (some fname, written) =>
    if path = fname then some ⟨some fname, some [slash], written⟩
    else
      let len := path.length - fname.length
      some ⟨some fname, some (path.take len), written ++ writes len len ++ [⟨len, len⟩]⟩

section Model

variable {fuel : Nat} {path : Str}

theorem namingBody_erase (path : Str) (v : Naming) :
    filenameBody (v.ret, v.rest) = (namingBody path v).map (fun v => (v.ret, v.rest)) Prod.fst := by
  cases htoken : strtok v.rest
  next n rest =>
  cases n with
  | none =>
      simp only [filenameBody, namingBody, token, htoken]
      rfl
  | some n =>
      simp only [filenameBody, namingBody, token, htoken]
      rfl

theorem fopenSplit_model {s : Split} (h : fopenSplit fuel path = some s) : fatGetfilename fuel path = some s.fname ∧
    ∀ fname, s.fname = some fname → s.pathto = some (pathTo path fname) := by
  have hname : fatGetfilename fuel path = _ :=
    run_map (namingBody_erase path) fuel (token path path (writes (path.length + 1) (path.length + 1)))
  simp only [fopenSplit] at h
  split at h
  · cases h
  · next hrun =>
      rw [hrun] at hname
      cases h
      refine ⟨hname, fun _ h => ?_⟩
      cases h
  · next fname written hrun =>
      rw [hrun] at hname
      split at h
      · next heq =>
          cases h
          refine ⟨hname, fun _ h => ?_⟩
          cases h
          rw [pathTo, if_pos heq]
      · next hne =>
          cases h
          refine ⟨hname, fun _ h => ?_⟩
          cases h
          rw [pathTo, if_neg hne]

end Model

section Names

theorem slash_not_mem {s n : Str} (h : n ∈ names s) : slash ∉ n := by
  induction hns : names s generalizing s with
  | nil =>
      rw [hns] at h
      cases h
  | cons m ns ih =>
      obtain ⟨-, rest, htoken, hrest⟩ := strtok_of_names hns
      rw [hns] at h
      rcases List.mem_cons.mp h with rfl | hmem
      · exact (strtok_some htoken).2.2.1
      · exact ih (hrest.symm ▸ hmem) hrest

theorem eq_slash_of_names {s : Str} (h : names s = []) : ∀ c ∈ s, c = slash := by
  have htoken := strtok_of_nil h
  simp only [strtok] at htoken
  split at htoken
  · next hnil =>
      intro c hc
      simpa using List.dropWhile_eq_nil_iff.mp hnil c hc
  · cases htoken

/-- A string that does not end in a slash ends in its last name. -/
theorem suffix_of_last {s n : Str} (h : (names s).getLast? = some n) (hend : s.getLast? ≠ some slash) : n <:+ s := by
  induction hns : names s generalizing s with
  | nil =>
      rw [hns] at h
      cases h
  | cons m ns ih =>
      obtain ⟨-, rest, htoken, hrest⟩ := strtok_of_names hns
      obtain ⟨⟨front, hs⟩, -, -, ⟨hnil, rfl⟩ | hcons⟩ := strtok_some htoken
      · obtain rfl : ns = [] := hrest.symm
        rw [hns] at h
        cases h
        rw [hs, hnil, List.append_nil]
        exact List.suffix_append front _
      · have hlast : s.getLast? = (slash :: rest).getLast? := by
          rw [hs, hcons, List.getLast?_append_of_ne_nil _ (List.cons_ne_nil slash rest)]
        have hsuffix : rest <:+ s := by
          rw [hs, hcons, List.append_cons]
          exact List.suffix_append _ rest
        cases ns with
        | nil =>
            have hslash : ∀ c ∈ slash :: rest, c = slash := List.forall_mem_cons.mpr ⟨rfl, eq_slash_of_names hrest⟩
            refine absurd ?_ hend
            rw [hlast, List.getLast?_eq_some_getLast (List.cons_ne_nil slash rest)]
            exact congrArg some (hslash _ (List.getLast_mem _))
        | cons k ns =>
            have hne : rest ≠ [] := by
              rintro rfl
              cases hrest
            rw [hns, List.getLast?_cons_cons, ← hrest] at h
            rw [hlast, List.getLast?_cons_of_ne_nil hne] at hend
            exact (ih h hend hrest).trans hsuffix

theorem names_bare {s : Str} (hne : s ≠ []) (h : slash ∉ s) : names s = [s] := by
  have hall : ∀ c ∈ s, decide (c ≠ slash) = true := by
    intro c hc
    rw [decide_eq_true_iff]
    rintro rfl
    exact h hc
  obtain ⟨rest, hsplit, hrest⟩ := splitOn_slash s
  rw [List.takeWhile_eq_self_iff.mpr hall] at hsplit
  rw [List.dropWhile_eq_nil_iff.mpr hall] at hrest
  rw [names, hsplit, List.filter_cons_of_pos (by simpa using hne), hrest]
  rfl

end Names

section Writes

variable {path : Str}

theorem writes_inside {size len : Nat} (h : len ≤ size) : ∀ w ∈ writes size len, w.Inside := by
  intro w hw
  obtain ⟨i, hi, rfl⟩ := List.mem_map.mp hw
  exact (List.mem_range.mp hi).trans_le h

theorem terminated_inside (path s : Str) : ∀ w ∈ terminated path s, w.Inside := by
  intro w hw
  unfold terminated at hw
  split at hw
  · cases hw
  · obtain rfl := List.mem_singleton.mp hw
    exact Nat.lt_succ_of_le (Nat.sub_le _ _)

theorem token_inside {s : Str} {written : List Write} (h : ∀ w ∈ written, w.Inside) :
    ∀ w ∈ (token path s written).written, w.Inside := by
  intro w hw
  rcases List.mem_append.mp hw with hw | hw
  · exact h w hw
  · exact terminated_inside path s w hw

theorem naming_returns {v : Naming} {m : Str} (hret : v.ret = some m) (hwritten : ∀ w ∈ v.written, w.Inside) :
    ∃ written, Returns (namingBody path) v (some ((names v.rest).getLast?.getD m), written) ∧
      ∀ w ∈ written, w.Inside := by
  induction hns : names v.rest generalizing v m with
  | nil =>
      have htoken := strtok_of_nil hns
      refine ⟨(token path v.rest v.written).written, .of_done ?_, token_inside hwritten⟩
      simp only [namingBody, token, htoken, hret]
      rfl
  | cons n ns ih =>
      obtain ⟨-, rest, htoken, hrest⟩ := strtok_of_names hns
      have hbody : namingBody path v = .next (token path v.rest v.written) := by
        simp only [namingBody, token, htoken]
      have hret' : (token path v.rest v.written).ret = some n := by simp only [token, htoken]
      have hrest' : names (token path v.rest v.written).rest = ns := by simp only [token, htoken, hrest]
      obtain ⟨written, hreturns, hinside⟩ := ih hret' (token_inside hwritten) hrest'
      refine ⟨written, .of_next hbody ?_, hinside⟩
      rwa [List.getLast?_cons, Option.getD_some]

/-- The name that is found is the last one, and nothing was written outside the copy. -/
theorem naming_last {n : Str} (h : (names path).getLast? = some n) : ∃ fuel written,
    run (namingBody path) fuel (token path path (writes (path.length + 1) (path.length + 1))) =
      some (some n, written) ∧ ∀ w ∈ written, w.Inside := by
  cases hns : names path with
  | nil =>
      rw [hns] at h
      cases h
  | cons m ns =>
      obtain ⟨-, rest, htoken, hrest⟩ := strtok_of_names hns
      have hret : (token path path (writes (path.length + 1) (path.length + 1))).ret = some m := by
        simp only [token, htoken]
      have hnames : names (token path path (writes (path.length + 1) (path.length + 1))).rest = ns := by
        simp only [token, htoken, hrest]
      obtain ⟨written, ⟨fuel, hrun⟩, hinside⟩ := naming_returns hret (token_inside (writes_inside le_rfl))
      rw [hns, List.getLast?_cons] at h
      rw [hnames, Option.some.inj h] at hrun
      exact ⟨fuel, written, hrun, hinside⟩

end Writes

theorem getfilename_last {path n : Str} (h : (names path).getLast? = some n) :
    ∃ bound, ∀ fuel ≥ bound, fatGetfilename fuel path = some (some n) := by
  obtain ⟨bound, written, hrun, -⟩ := naming_last h
  refine ⟨bound, fun fuel hfuel => ?_⟩
  have hname : fatGetfilename bound path = _ :=
    run_map (namingBody_erase path) bound (token path path (writes (path.length + 1) (path.length + 1)))
  rw [hrun] at hname
  exact run_mono hfuel hname

theorem last_of_getfilename {path n : Str} {fuel : Nat} (h : fatGetfilename fuel path = some (some n)) :
    (names path).getLast? = some n := by
  cases hlast : (names path).getLast? with
  | none =>
      have hnil : strtok path = (none, []) := strtok_of_nil (List.getLast?_eq_none_iff.mp hlast)
      have hdone : filenameBody (none, []) = .done none := rfl
      rw [fatGetfilename, hnil] at h
      cases Returns.of_first hdone ⟨fuel, h⟩
  | some m =>
      obtain ⟨bound, hbound⟩ := getfilename_last hlast
      have hsame : fatGetfilename (max fuel bound) path = some (some n) := run_mono (Nat.le_max_left _ _) h
      cases hsame.symm.trans (hbound _ (Nat.le_max_right _ _))
      rfl

/-- The path comes apart into its last name and what is in front of it, and each byte is
written inside its block. -/
def Splits (path : Str) : Prop :=
  ∃ fuel fname pathto written, fopenSplit fuel path = some ⟨some fname, some pathto, written⟩ ∧
    (names path).getLast? = some fname ∧ (pathto ++ fname = path ∨ slash ∉ path ∧ pathto = [slash]) ∧
    ∀ w ∈ written, w.Inside

theorem not_splits {path : Str} (hslash : slash ∈ path) : ¬ Splits path := by
  rintro ⟨fuel, fname, pathto, written, hsplit, hlast, -, hinside⟩
  simp only [fopenSplit] at hsplit
  split at hsplit
  · cases hsplit
  · cases hsplit
  · split at hsplit
    · next heq =>
        cases hsplit
        exact slash_not_mem (List.mem_of_getLast? hlast) (heq ▸ hslash)
    · cases hsplit
      exact lt_irrefl _ (hinside _ (List.mem_append_right _ (List.mem_singleton_self _)))

/-- For every path with a name at its end: it is split in bounds exactly if it is that
name alone. -/
theorem splits_iff {path : Str} (hname : names path ≠ []) (hend : path.getLast? ≠ some slash) :
    Splits path ↔ slash ∉ path := by
  constructor
  · intro h hslash
    exact not_splits hslash h
  · intro h
    have hne : path ≠ [] := by
      rintro rfl
      exact hname rfl
    have hlast : (names path).getLast? = some path := by
      rw [names_bare hne h]
      rfl
    obtain ⟨fuel, written, hrun, hinside⟩ := naming_last hlast
    refine ⟨fuel, path, [slash], written, ?_, hlast, Or.inr ⟨h, rfl⟩, hinside⟩
    simp only [fopenSplit, hrun, if_true]

/-- Apart from that byte, paths of all kinds are split. -/
theorem fopenSplit_joins {path n : Str} (h : (names path).getLast? = some n) (hend : path.getLast? ≠ some slash)
    (hslash : slash ∈ path) : ∃ fuel pathto written, fopenSplit fuel path =
      some ⟨some n, some pathto, written ++ [⟨pathto.length, pathto.length⟩]⟩ ∧ pathto ++ n = path ∧
      ∀ w ∈ written, w.Inside := by
  obtain ⟨fuel, written, hrun, hinside⟩ := naming_last h
  obtain ⟨front, rfl⟩ := suffix_of_last h hend
  have hne : front ++ n ≠ n := by
    intro heq
    exact slash_not_mem (List.mem_of_getLast? h) (heq ▸ hslash)
  have hlen : (front ++ n).length - n.length = front.length := by
    rw [List.length_append, Nat.add_sub_cancel]
  refine ⟨fuel, front, written ++ writes front.length front.length, ?_, rfl, ?_⟩
  · simp only [fopenSplit, hrun, if_neg hne, hlen, List.take_left]
  · intro w hw
    rcases List.mem_append.mp hw with hw | hw
    · exact hinside w hw
    · exact writes_inside le_rfl w hw

theorem bare_splits : Splits [0x41, 0x42] := (splits_iff (by decide) (by decide)).mpr (by decide)

/-- The terminator of the path to the root goes into the byte behind its block. -/
theorem rooted_overruns : names [slash, 0x41] ≠ [] ∧ ([slash, 0x41] : Str).getLast? ≠ some slash ∧
    ¬ Splits [slash, 0x41] :=
  ⟨by decide, by decide, not_splits List.mem_cons_self⟩

end MetalNes.PathSplit
