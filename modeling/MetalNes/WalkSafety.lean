import MetalNes.MountChain
import MetalNes.MountWalks

namespace MetalNes.WalkSafety

open Blocks CStrings Loop Vfs MountChain SkipWalks MountWalks

variable {W ρ σ : Type}

/-- A loop over the mounts follows no NULL, and comes to each mount up to the first one where
it stops, in the order of the list. -/
def SafeComplete (body : Walking W → Iter (Walking W) (Except Fault ρ × Trace)) (s : VfsState W)
    (accepting : List Mount) : Prop :=
  ∃ q t, Returns body ⟨s.vfsMfs, s, .empty⟩ (.ok q, t) ∧ t.visited = accepting.map Prod.fst

theorem safeComplete_iff {body : Walking W → Iter (Walking W) (Except Fault ρ × Trace)} {f : Mount → σ → Pass σ}
    {st : Walking W → σ} {offer : Mount → List (Nat × Str)} (hbody : WalksAs body f st offer) {path : Str}
    (hskip : ∀ m s, f m s = .skip ↔ Longer path m) {s : VfsState W} {ms : List Mount}
    (hlist : Linked s.nodes s.vfsMfs ms) : SafeComplete body s (upToStop f ms (st ⟨s.vfsMfs, s, .empty⟩)) ↔
      ∀ m ∈ upToStop f ms (st ⟨s.vfsMfs, s, .empty⟩), ¬ Longer path m := by
  rw [← walk_complete_iff Prod.fst hskip hlist.nodup]
  obtain ⟨r, hreturns, hok⟩ := hbody.returns (v := ⟨s.vfsMfs, s, .empty⟩) rfl hlist
  rw [← hok]
  constructor
  · rintro ⟨q, t, hreturns', ht⟩
    cases hreturns.unique hreturns'
    exact ⟨ht, q, rfl⟩
  · rintro ⟨ht, q, rfl⟩
    exact ⟨q, _, hreturns, ht⟩

section Bodies

variable (drivers : Nat → FsDriver W) (path : Str)

abbrev directoryMounts (ms : List Mount) : List Mount := upToStop (opendirPass path) ms ()

abbrev fileMounts (w : W) (ms : List Mount) : List Mount := upToStop (vfsfopenPass drivers path) ms w

end Bodies

/-- For every list that ends at NULL, all paths and all drivers: the loops of opendir and
vfsfopen are safe and complete exactly if no mount that they should consider is longer than
the path. -/
theorem walks_safeComplete_iff (drivers : Nat → FsDriver W) (path : Str) {s : VfsState W} {ms : List Mount}
    (hlist : Linked s.nodes s.vfsMfs ms) (slot : Fin 16) (vfsofindex : Fin 64) :
    (SafeComplete (opendirBodyLog drivers path slot) s (directoryMounts path ms) ∧
      SafeComplete (vfsfopenBodyLog drivers path vfsofindex) s (fileMounts drivers path s.world ms)) ↔
      (∀ m ∈ directoryMounts path ms, ¬ Longer path m) ∧
        ∀ m ∈ fileMounts drivers path s.world ms, ¬ Longer path m :=
  and_congr (safeComplete_iff (opendirBodyLog_walks drivers path slot) (opendirPass_skip_iff path) hlist)
    (safeComplete_iff (vfsfopenBodyLog_walks drivers path vfsofindex) (vfsfopenPass_skip_iff drivers path) hlist)

theorem sd_safeComplete :
    SafeComplete (opendirBodyLog (fixedDrivers none) [slash, 0x78, 0x79] 0) (mounted [rootPath, sdPath])
        [rootMount (some 1)] ∧
      SafeComplete (vfsfopenBodyLog (fixedDrivers none) [slash, 0x78, 0x79] 3) (mounted [rootPath, sdPath])
        [rootMount (some 1), sdMount] :=
  (walks_safeComplete_iff (fixedDrivers none) [slash, 0x78, 0x79] sd_linked 0 3).mpr ⟨by decide, by decide⟩

/-- The empty path is shorter than the root: the walk goes on through its next, which is
NULL. -/
theorem empty_path_faults :
    Linked (mounted [rootPath]).nodes (mounted [rootPath]).vfsMfs [rootMount none] ∧
      ¬ (SafeComplete (opendirBodyLog (fixedDrivers none) [] 0) (mounted [rootPath])
          (directoryMounts [] [rootMount none]) ∧
        SafeComplete (vfsfopenBodyLog (fixedDrivers none) [] 3) (mounted [rootPath])
          (fileMounts (fixedDrivers none) [] () [rootMount none])) := by
  refine ⟨⟨rfl, rfl, rfl⟩, ?_⟩
  rintro ⟨⟨q, t, hreturns, -⟩, -⟩
  cases hreturns.unique (.of_done rfl)

end MetalNes.WalkSafety
