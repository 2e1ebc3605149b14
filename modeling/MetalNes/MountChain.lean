import MetalNes.Vfs

namespace MetalNes.MountChain

open Blocks CStrings Loop Vfs

variable {W : Type}

/-- The arguments of a call, with what malloc returns in it if it is asked. -/
structure MountCall where
  path : Option Str
  fs : Option Nat
  block : Option NodeBlock

/-- The nodes from a pointer on, through next, with their predecessors. -/
def Chain (nodes : Nat → Option VfsMountNode) : Option Nat → Option Nat → List (Str × Nat) → Prop
  | _, itr, [] => itr = none
  | prev, itr, m :: rest => ∃ a node, itr = some a ∧ nodes a = some node ∧
      (node.mountpath, node.vfsDriver) = m ∧ node.prev = prev ∧ Chain nodes (some a) node.next rest

def MountList (s : VfsState W) (mounts : List (Str × Nat)) : Prop := Chain s.nodes none s.vfsMfs mounts

/-- What a call with its result does to the systems that are mounted. The first
one becomes the root, whatever its path. -/
inductive Entry (mounts : List (Str × Nat)) (c : MountCall) : Int → List (Str × Nat) → Prop
  | refused : Entry mounts c (-1) mounts
  | first {fs : Nat} (hfs : c.fs = some fs) (hfirst : mounts = []) : Entry mounts c 0 [(rootPath, fs)]
  | later {path : Str} {fs : Nat} (hfs : c.fs = some fs) (hpath : c.path = some path)
      (hlater : mounts ≠ []) : Entry mounts c 0 (mounts ++ [(path, fs)])

def Unchanged (s t : VfsState W) : Prop := t.vfsMfs = s.vfsMfs ∧ t.nodes = s.nodes

section Calls

variable (drivers : Nat → FsDriver W)

def Mounts (s : VfsState W) (c : MountCall) (r : Int) (t : VfsState W) : Prop :=
  ∃ fuel, vfsMount drivers c.path c.fs c.block s fuel = some (.ok (r, t))

/-- Every call of the sequence returns and leaves the list as it should be. -/
def Tidy (mounts : List (Str × Nat)) (s : VfsState W) : List MountCall → Prop
  | [] => True
  | c :: calls => ∃ r t mounts', Mounts drivers s c r t ∧ Entry mounts c r mounts' ∧
      MountList t mounts' ∧ (r = -1 → Unchanged s t) ∧ Tidy mounts' t calls

def RootOpens (s : VfsState W) (path : Str) : Prop :=
  ∃ a node, s.vfsMfs = some a ∧ s.nodes a = some node ∧
    ((drivers node.vfsDriver).fsopendir path s.world).1 ≠ none

def Refused (s : VfsState W) (c : MountCall) : Prop :=
  c.fs = none ∨ s.vfsMfs ≠ none ∧ (c.path = none ∨ ∃ path ∈ c.path, RootOpens drivers s path)

/-- Nothing is mounted, and the new block happens to have cleared links. -/
def FirstClear (s : VfsState W) (c : MountCall) : Prop :=
  s.vfsMfs = none ∧ ∃ b ∈ c.block, b.prev = none ∧ b.next = none

def RefusedOrFirst (s : VfsState W) (c : MountCall) : Prop := Refused drivers s c ∨ FirstClear s c

def AllRefusedOrFirst (s : VfsState W) : List MountCall → Prop
  | [] => True
  | c :: calls => RefusedOrFirst drivers s c ∧
      ∀ r t, Mounts drivers s c r t → AllRefusedOrFirst t calls

end Calls

variable {drivers : Nat → FsDriver W} {s t : VfsState W} {c : MountCall} {r : Int}

inductive RootOnly (s : VfsState W) : List (Str × Nat) → Prop
  | nothing (h : s.vfsMfs = none) : RootOnly s []
  | root {a fs : Nat} (h : s.vfsMfs = some a) (hnode : s.nodes a = some ⟨rootPath, fs, none, none⟩) :
      RootOnly s [(rootPath, fs)]

theorem RootOnly.mountList {mounts : List (Str × Nat)} (h : RootOnly s mounts) : MountList s mounts := by
  cases h with
  | nothing h => exact h
  | root h hnode => exact ⟨_, _, h, hnode, rfl, rfl, rfl⟩

/-- The loop that appends is left by faults only. -/
theorem appendBody_done {nmnt : Nat} {st : Option Nat × VfsState W} {q : Except Fault (Int × VfsState W)}
    (h : appendBody nmnt st = .done q) : ∃ e, q = .error e := by
  obtain ⟨itr, s⟩ := st
  cases itr with
  | none =>
      cases h
      exact ⟨_, rfl⟩
  | some a =>
      simp only [appendBody] at h
      split at h
      · cases h
        exact ⟨_, rfl⟩
      · split at h
        · cases h
        · split at h
          · cases h
            exact ⟨_, rfl⟩
          · cases h

theorem append_never_returns {nmnt fuel : Nat} {st : Option Nat × VfsState W} {q : Int × VfsState W} :
    run (appendBody nmnt) fuel st ≠ some (.ok q) := by
  intro h
  obtain ⟨e, he⟩ := run_of_done (fun _ _ => appendBody_done) h
  cases he

section Root

variable {a fs : Nat} (hroot : s.vfsMfs = some a) (hnode : s.nodes a = some ⟨rootPath, fs, none, none⟩)

include hroot hnode

theorem rootOpens_iff (path : Str) :
    RootOpens drivers s path ↔ ((drivers fs).fsopendir path s.world).1 ≠ none := by
  constructor
  · rintro ⟨a', node, ha', hnode', hopens⟩
    cases hroot.symm.trans ha'
    cases hnode.symm.trans hnode'
    exact hopens
  · exact fun hopens => ⟨a, _, hroot, hnode, hopens⟩

omit hroot in
theorem collisionBody_root (path : Str) : collisionBody drivers path (some a, s) =
    match ((drivers fs).fsopendir path s.world).1 with
    | some _ => .done (.ok (true, { s with world := ((drivers fs).fsopendir path s.world).2 }))
    | none => .next (none, { s with world := ((drivers fs).fsopendir path s.world).2 }) := by
  cases hdir : ((drivers fs).fsopendir path s.world).1 <;>
    simp only [collisionBody, deref, hnode, hdir]

/-- With the root alone, a call for a further system ends only where the root can
open its path. -/
theorem mounts_further {path : Str} {new : Nat} (hpath : c.path = some path) (hfs : c.fs = some new)
    (h : Mounts drivers s c r t) : RootOpens drivers s path := by
  obtain ⟨fuel, hrun⟩ := h
  rw [rootOpens_iff hroot hnode]
  intro hrefuses
  have hpass : collisionBody drivers path (some a, s) =
      .next (none, { s with world := ((drivers fs).fsopendir path s.world).2 }) := by
    rw [collisionBody_root hnode, hrefuses]
  have hpasses : run (collisionBody drivers path) fuel (some a, s) = none ∨
      run (collisionBody drivers path) fuel (some a, s) =
        some (.ok (false, { s with world := ((drivers fs).fsopendir path s.world).2 })) := by
    match fuel with
    | 0 => exact .inl rfl
    | 1 => exact .inl (run_next hpass 0)
    | fuel + 2 => exact .inr ((run_next hpass _).trans (run_done rfl fuel))
  simp only [vfsMount, hfs, hroot, hpath] at hrun
  rcases hpasses with hscan | hscan
  · rw [hscan] at hrun
    cases hrun
  · rw [hscan] at hrun
    cases hblock : c.block with
    | none =>
        rw [hblock] at hrun
        cases hrun
    | some b =>
        rw [hblock] at hrun
        exact append_never_returns hrun

theorem mounts_refused {path : Str} {new : Nat} (hpath : c.path = some path) (hfs : c.fs = some new)
    (h : RootOpens drivers s path) :
    Mounts drivers s c (-1) { s with world := ((drivers fs).fsopendir path s.world).2 } := by
  rw [rootOpens_iff hroot hnode] at h
  obtain ⟨dir, hdir⟩ := Option.ne_none_iff_exists'.mp h
  refine ⟨1, ?_⟩
  have hpass : collisionBody drivers path (some a, s) =
      .done (.ok (true, { s with world := ((drivers fs).fsopendir path s.world).2 })) := by
    rw [collisionBody_root hnode, hdir]
  simp only [vfsMount, hfs, hroot, hpath, run_done hpass]

end Root

theorem mounts_null (hfs : c.fs = none) : Mounts drivers s c (-1) s :=
  ⟨0, by simp only [vfsMount, hfs]⟩

/-- The node of the root, in the block malloc returned for it. -/
def rootMounted (s : VfsState W) (fs : Nat) (b : NodeBlock) : VfsState W :=
  { s.setNode b.addr ⟨rootPath, fs, b.prev, b.next⟩ with vfsMfs := some b.addr }

theorem mounts_first {fs : Nat} {b : NodeBlock} (h : s.vfsMfs = none) (hfs : c.fs = some fs)
    (hblock : c.block = some b) : Mounts drivers s c 0 (rootMounted s fs b) := by
  refine ⟨0, ?_⟩
  simp only [vfsMount, hfs, h, hblock]
  rfl

theorem mounts_noPath {a fs : Nat} (h : s.vfsMfs = some a) (hfs : c.fs = some fs)
    (hpath : c.path = none) : Mounts drivers s c (-1) s := by
  refine ⟨0, ?_⟩
  simp only [vfsMount, hfs, h, hpath]

theorem vfsMount_mono {path : Option Str} {fs : Option Nat} {block : Option NodeBlock} {m n : Nat}
    (hmn : m ≤ n) {q : Except Fault (Int × VfsState W)}
    (h : vfsMount drivers path fs block s m = some q) : vfsMount drivers path fs block s n = some q := by
  unfold vfsMount at h ⊢
  cases fs with
  | none => exact h
  | some fs =>
      cases hroot : s.vfsMfs with
      | none =>
          rw [hroot] at h
          exact h
      | some root =>
          cases path with
          | none =>
              rw [hroot] at h
              exact h
          | some path =>
              simp only [hroot] at h ⊢
              cases hscan : run (collisionBody drivers path) m (some root, s) with
              | none =>
                  rw [hscan] at h
                  cases h
              | some scanned =>
                  rw [hscan] at h
                  rw [run_mono hmn hscan]
                  match scanned, block with
                  | .error e, _ => exact h
                  | .ok (true, t), _ => exact h
                  | .ok (false, t), none => exact h
                  | .ok (false, t), some b => exact run_mono hmn h

theorem Mounts.unique {r r' : Int} {t t' : VfsState W} (h : Mounts drivers s c r t)
    (h' : Mounts drivers s c r' t') : r = r' ∧ t = t' := by
  obtain ⟨m, hm⟩ := h
  obtain ⟨n, hn⟩ := h'
  have hm' := vfsMount_mono (Nat.le_max_left m n) hm
  have hn' := vfsMount_mono (Nat.le_max_right m n) hn
  have hsame := Except.ok.inj (Option.some.inj (hm'.symm.trans hn'))
  exact ⟨congrArg Prod.fst hsame, congrArg Prod.snd hsame⟩

theorem Entry.unique {mounts ms ms' : List (Str × Nat)} (h : Entry mounts c r ms)
    (h' : Entry mounts c r ms') : ms = ms' := by
  cases h with
  | refused =>
      cases h' with
      | refused => rfl
  | first hfs hfirst =>
      cases h' with
      | first hfs' _ => rw [Option.some.inj (hfs.symm.trans hfs')]
      | later _ _ hlater => exact absurd hfirst hlater
  | later hfs hpath hlater =>
      cases h' with
      | first _ hfirst => exact absurd hfirst hlater
      | later hfs' hpath' _ =>
          rw [Option.some.inj (hfs.symm.trans hfs'), Option.some.inj (hpath.symm.trans hpath')]

theorem RootOnly.step {mounts : List (Str × Nat)} (hs : RootOnly s mounts)
    (hok : RefusedOrFirst drivers s c) : ∃ r t mounts', Mounts drivers s c r t ∧ Entry mounts c r mounts' ∧
      (r = -1 → Unchanged s t) ∧ RootOnly t mounts' := by
  cases hfs : c.fs with
  | none => exact ⟨-1, s, mounts, mounts_null hfs, .refused, fun _ => ⟨rfl, rfl⟩, hs⟩
  | some fs =>
      obtain (hnull | ⟨hmounted, hrefused⟩) | ⟨hnothing, b, hblock, hprev, hnext⟩ := hok
      · exact absurd (hfs.symm.trans hnull) (Option.some_ne_none fs)
      · cases hs with
        | nothing h => exact absurd h hmounted
        | root hroot hnode =>
            obtain hpath | ⟨path, hpath, hopens⟩ := hrefused
            · exact ⟨-1, s, _, mounts_noPath hroot hfs hpath, .refused, fun _ => ⟨rfl, rfl⟩, .root hroot hnode⟩
            · exact ⟨-1, _, _, mounts_refused hroot hnode hpath hfs hopens, .refused, fun _ => ⟨rfl, rfl⟩,
                .root hroot hnode⟩
      · cases hs with
        | root hroot hnode => exact absurd (hroot.symm.trans hnothing) (Option.some_ne_none _)
        | nothing h =>
            refine ⟨0, rootMounted s fs b, _, mounts_first h hfs hblock, .first hfs rfl, ?_, .root rfl ?_⟩
            · exact fun h0 => absurd h0 (by decide)
            · rw [rootMounted, hprev, hnext]
              exact Function.update_self _ _ _

/-- Any other call that returns leaves a list that is none. -/
theorem RootOnly.refusedOrFirst {mounts mounts' : List (Str × Nat)} (hs : RootOnly s mounts)
    (h : Mounts drivers s c r t) (hentry : Entry mounts c r mounts') (hlist : MountList t mounts') :
    RefusedOrFirst drivers s c := by
  cases hfs : c.fs with
  | none => exact .inl (.inl hfs)
  | some fs =>
      cases hs with
      | nothing hnothing =>
          cases hblock : c.block with
          | none =>
              obtain ⟨fuel, hrun⟩ := h
              simp only [vfsMount, hfs, hnothing, hblock] at hrun
              cases hrun
          | some b =>
              obtain ⟨rfl, rfl⟩ := h.unique (mounts_first hnothing hfs hblock)
              refine .inr ⟨hnothing, b, hblock, ?_⟩
              cases hentry with
              | first hfs' _ =>
                  obtain ⟨a, node, ha, hnode, -, hprev, hnext⟩ := hlist
                  cases ha
                  have hnode' := (Function.update_self _ _ _).symm.trans hnode
                  cases hnode'
                  exact ⟨hprev, hnext⟩
              | later _ _ hlater => exact absurd rfl hlater
      | root hroot hnode =>
          refine .inl (.inr ⟨hroot ▸ Option.some_ne_none _, ?_⟩)
          cases hpath : c.path with
          | none => exact .inl rfl
          | some path => exact .inr ⟨path, rfl, mounts_further hroot hnode hpath hfs h⟩

theorem tidy_iff_of_rootOnly {mounts : List (Str × Nat)} (hs : RootOnly s mounts) (calls : List MountCall) :
    Tidy drivers mounts s calls ↔ AllRefusedOrFirst drivers s calls := by
  induction calls generalizing s mounts with
  | nil => exact Iff.rfl
  | cons c calls ih =>
      constructor
      · rintro ⟨r, t, mounts', hmounts, hentry, hlist, hsame, hrest⟩
        have hok := hs.refusedOrFirst hmounts hentry hlist
        refine ⟨hok, fun r' t' hmounts' => ?_⟩
        obtain ⟨r₀, t₀, mounts₀, hmounts₀, hentry₀, -, ht₀⟩ := hs.step hok
        obtain ⟨rfl, rfl⟩ := hmounts₀.unique hmounts'
        obtain ⟨rfl, rfl⟩ := hmounts₀.unique hmounts
        rw [← hentry₀.unique hentry] at hrest
        exact (ih ht₀).mp hrest
      · rintro ⟨hok, hrest⟩
        obtain ⟨r, t, mounts', hmounts, hentry, hsame, ht⟩ := hs.step hok
        exact ⟨r, t, mounts', hmounts, hentry, ht.mountList, hsame, (ih ht).mpr (hrest r t hmounts)⟩

/-- For every sequence of calls from the start. -/
theorem tidy_iff (drivers : Nat → FsDriver W) {s : VfsState W} (hnothing : s.vfsMfs = none)
    (calls : List MountCall) : Tidy drivers [] s calls ↔ AllRefusedOrFirst drivers s calls :=
  tidy_iff_of_rootOnly (.nothing hnothing) calls

/-- Drivers that answer every request for a directory alike. -/
def fixedDrivers (dir : Option Nat) (_ : Nat) : FsDriver Unit where
  fsopendir _ w := (dir, w)
  fsclosedir _ w := (0, w)
  fsopenfile _ w := (none, w)
  fsclosefile _ w := (0, w)

def noMounts : VfsState Unit where
  vfsMfs := none
  nodes _ := none
  vfsOpenDirs _ := ⟨none, none⟩
  vfsOpenFiles _ := ⟨none, none⟩
  world := ()

def rootCall : MountCall := ⟨none, some 7, some ⟨0, none, none⟩⟩

def furtherCall : MountCall := ⟨some [slash, 0x73, 0x64], some 8, some ⟨1, none, none⟩⟩

theorem root_then_collision_tidy : Tidy (fixedDrivers (some 3)) [] noMounts [rootCall, furtherCall] := by
  refine (tidy_iff (fixedDrivers (some 3)) rfl _).mpr ⟨.inr ⟨rfl, _, rfl, rfl, rfl⟩, fun r t hfirst => ?_⟩
  obtain ⟨-, rfl⟩ := (mounts_first rfl rfl rfl).unique hfirst
  refine ⟨.inl (.inr ⟨Option.some_ne_none _, .inr ⟨_, rfl, 0, _, rfl, rfl, ?_⟩⟩), fun _ _ _ => trivial⟩
  exact Option.some_ne_none _

/-- A second system, at a path that is free, is never mounted: the call does not
return. -/
theorem free_path_never_mounted : ¬ Tidy (fixedDrivers none) [] noMounts [rootCall, furtherCall] := by
  rintro ⟨r, t, mounts, hfirst, -, -, -, r', t', mounts', hsecond, -⟩
  obtain ⟨-, rfl⟩ := (mounts_first rfl rfl rfl).unique hfirst
  obtain ⟨a, node, ha, hnode, hopens⟩ := mounts_further rfl rfl rfl rfl hsecond
  exact hopens rfl

end MetalNes.MountChain
