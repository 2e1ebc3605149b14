import MetalNes.MountChain
import MetalNes.MountWalks

namespace MetalNes.MountRouting

open Blocks CStrings Loop Vfs MountChain SkipWalks MountWalks

variable {W : Type}

/-- The mount path is the path, or a component of the path begins behind it. -/
def Within (mountpath path : Str) : Prop :=
  mountpath <+: path ∧ (path = mountpath ∨ mountpath.getLast? = some slash ∨
    (path.drop mountpath.length).head? = some slash)

instance (mountpath path : Str) : Decidable (Within mountpath path) := instDecidableAnd

/-- No other mount that the path is within has a longer mount path. -/
def Innermost (path : Str) (ms : List Mount) (m : Mount) : Prop :=
  m ∈ ms ∧ Within m.2.mountpath path ∧
    ∀ k ∈ ms, Within k.2.mountpath path → k.2.mountpath.length ≤ m.2.mountpath.length

/-- The list of a root and further systems. -/
structure Rooted (s : VfsState W) (root : Mount) (further : List Mount) : Prop where
  linked : Linked s.nodes s.vfsMfs (root :: further)
  slash : root.2.mountpath = rootPath
  absolute : ∀ m ∈ further, m.2.mountpath.head? = some CStrings.slash
  distinct : ((root :: further).map fun m => m.2.mountpath).Nodup

/-- opendir returns, and its one call of a driver is that of the innermost mount, with what
is left of the path. -/
def Routes (drivers : Nat → FsDriver W) (path : Str) (s : VfsState W) (ms : List Mount) : Prop :=
  ∃ m, Innermost path ms m ∧ ∃ fuel q t, opendirLog drivers (some path) s fuel = some (.ok q, t) ∧
    t.calls = [(m.1, remainder path m.2.mountpath)]

variable {drivers : Nat → FsDriver W} {path : Str} {s : VfsState W} {root : Mount} {further : List Mount}

theorem rootPath_begins (hpath : path.head? = some slash) : rootPath <+: path := by
  obtain ⟨rest, rfl⟩ := List.head?_eq_some_iff.mp hpath
  exact ⟨rest, rfl⟩

theorem root_within (hpath : path.head? = some slash) : Within rootPath path :=
  ⟨rootPath_begins hpath, .inr (.inl rfl)⟩

theorem opendirLog_root (drivers : Nat → FsDriver W) (h : Rooted s root further)
    (hpath : path.head? = some slash) {slot : Fin 16} (hslot : freeDir s = some slot) :
    ∃ q, ∀ fuel, opendirLog drivers (some path) s (fuel + 1) =
      some (.ok q, ⟨[root.1], [(root.1, remainder path root.2.mountpath)]⟩) := by
  obtain ⟨hroot, hnode, -⟩ := h.linked
  have hprefix : root.2.mountpath <+: path := h.slash ▸ rootPath_begins hpath
  have hstop : opendirPass path root () = .stop :=
    (if_neg (not_longer hprefix)).trans (if_pos hprefix)
  obtain ⟨q, hdone⟩ := (opendirBodyLog_walks drivers path slot).stop ⟨some root.1, s, .empty⟩ root ⟨rfl, hnode⟩ hstop
  rw [Trace.along_call (if_pos hprefix)] at hdone
  refine ⟨q, fun fuel => ?_⟩
  simp only [opendirLog, hslot, hroot]
  exact run_done hdone fuel

theorem routes_root (h : Rooted s root further) (hpath : path.head? = some slash)
    (hroutes : Routes drivers path s (root :: further)) :
    freeDir s ≠ none ∧ Innermost path (root :: further) root := by
  obtain ⟨m, hm, fuel, q, t, hrun, hcalls⟩ := hroutes
  cases hslot : freeDir s with
  | none =>
      simp only [opendirLog, hslot] at hrun
      cases hrun
      cases hcalls
  | some slot =>
      refine ⟨Option.some_ne_none slot, ?_⟩
      obtain ⟨q', hrun'⟩ := opendirLog_root drivers h hpath hslot
      cases fuel with
      | zero =>
          simp only [opendirLog, hslot, h.linked.1, run] at hrun
          cases hrun
      | succ fuel =>
          cases (hrun' fuel).symm.trans hrun
          have hcall := (List.cons.inj hcalls).1
          have haddr : root.1 = m.1 := congrArg (fun c : Nat × Str => c.1) hcall
          have hsame : root = m := List.inj_on_of_nodup_map h.linked.nodup List.mem_cons_self hm.1 haddr
          subst hsame
          exact hm

theorem Rooted.longer (h : Rooted s root further) {m : Mount} (hm : m ∈ further) :
    root.2.mountpath.length < m.2.mountpath.length := by
  obtain ⟨rest, hrest⟩ := List.head?_eq_some_iff.mp (h.absolute m hm)
  rw [h.slash, hrest]
  refine Nat.succ_lt_succ (List.length_pos_of_ne_nil fun hnil => ?_)
  refine (List.nodup_cons.mp h.distinct).1 (List.mem_map.mpr ⟨m, hm, ?_⟩)
  rw [hrest, hnil]
  exact h.slash.symm

/-- For every list of mounts, all absolute paths and all drivers: opendir routes to the
innermost mount exactly if there is room for a directory and the path is within no mount but
the root. -/
theorem routes_iff (drivers : Nat → FsDriver W) (h : Rooted s root further) (hpath : path.head? = some slash) :
    Routes drivers path s (root :: further) ↔
      freeDir s ≠ none ∧ ∀ m ∈ further, ¬ Within m.2.mountpath path := by
  constructor
  · intro hroutes
    obtain ⟨hslot, hroot⟩ := routes_root h hpath hroutes
    exact ⟨hslot, fun m hm hwithin =>
      absurd (hroot.2.2 m (List.mem_cons_of_mem root hm) hwithin) (Nat.not_le_of_lt (h.longer hm))⟩
  · rintro ⟨hslot, hnone⟩
    obtain ⟨slot, hslot⟩ := Option.ne_none_iff_exists'.mp hslot
    obtain ⟨q, hrun⟩ := opendirLog_root drivers h hpath hslot
    refine ⟨root, ⟨List.mem_cons_self, h.slash ▸ root_within hpath, fun k hk hwithin => ?_⟩, 1, q, _, hrun 0, rfl⟩
    rcases List.mem_cons.mp hk with rfl | hk
    · exact le_refl _
    · exact absurd hwithin (hnone k hk)

theorem sd_rooted : Rooted (mounted [rootPath, sdPath]) (rootMount (some 1)) [sdMount] :=
  ⟨sd_linked, rfl, by decide, by decide⟩

theorem sdx_routes : Routes (fixedDrivers none) (sdPath ++ [0x78]) (mounted [rootPath, sdPath])
    [rootMount (some 1), sdMount] :=
  (routes_iff (fixedDrivers none) sd_rooted rfl).mpr ⟨by decide, by decide⟩

/-- A path below the second mount is passed to the driver of the root. -/
theorem below_sd_not_routed : Rooted (mounted [rootPath, sdPath]) (rootMount (some 1)) [sdMount] ∧
    ¬ Routes (fixedDrivers none) (sdPath ++ [slash, 0x78]) (mounted [rootPath, sdPath])
      [rootMount (some 1), sdMount] := by
  refine ⟨sd_rooted, fun hroutes => ?_⟩
  have hle := (routes_root sd_rooted rfl hroutes).2.2.2 sdMount (List.mem_cons_of_mem _ List.mem_cons_self) (by decide)
  exact absurd hle (by decide)

end MetalNes.MountRouting
