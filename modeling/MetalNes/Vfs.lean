import MetalNes.Blocks
import MetalNes.CStrings
import MetalNes.Loop
import Mathlib.Data.Fintype.Basic
import Mathlib.Logic.Function.Basic

namespace MetalNes.Vfs

open Blocks CStrings Loop

/-- The functions of a file system driver, over the state W of all drivers. A
pointer they return is the number of the object it points to. -/
structure FsDriver (W : Type) where
  fsopendir : Str → W → Option Nat × W
  fsclosedir : Nat → W → Int × W
  fsopenfile : Str → W → Option Nat × W
  fsclosefile : Nat → W → Int × W

/-- A driver with its functions for open files: they are given the pointer to its file
system as well. What they write through other pointers is part of W. -/
structure FileDriver (W : Type) extends FsDriver W where
  nativeFs : Nat
  fsreadfile : Nat → U32 → Nat → Nat → W → Int × W
  fsfstat : Nat → Nat → Nat → W → Int × W

structure VfsMountNode where
  mountpath : Str
  vfsDriver : Nat
  prev : Option Nat
  next : Option Nat

structure VfsOpenDir where
  dir : Option Nat
  driver : Option Nat
  deriving DecidableEq, Repr

structure VfsOpenFile where
  filemeta : Option Nat
  driver : Option Nat
  deriving DecidableEq, Repr

/-- The globals of the virtual file system, the memory of the mount nodes and the
state of the drivers. -/
structure VfsState (W : Type) where
  vfsMfs : Option Nat
  nodes : Nat → Option VfsMountNode
  vfsOpenDirs : Fin 16 → VfsOpenDir
  vfsOpenFiles : Fin 64 → VfsOpenFile
  world : W

variable {W : Type}

/-- A pointer followed in the memory of the mount nodes. -/
def deref (nodes : Nat → Option VfsMountNode) : Option Nat → Except Fault VfsMountNode
  | none => .error .nullPointer
  | some a => match nodes a with
    | none => .error .outOfBounds
    | some node => .ok node

/-- What malloc returns for a mount node, with what the link fields of the block
hold: it is not cleared. -/
structure NodeBlock where
  addr : Nat
  prev : Option Nat
  next : Option Nat

def rootPath : Str := [slash]

def VfsState.setNode (s : VfsState W) (a : Nat) (node : VfsMountNode) : VfsState W :=
  { s with nodes := Function.update s.nodes a (some node) }

section Mount

variable (drivers : Nat → FsDriver W)

/-- The scan of the mounted systems for one that can open the path. -/
def collisionBody (path : Str) (s : Option Nat × VfsState W) :
    Iter (Option Nat × VfsState W) (Except Fault (Bool × VfsState W)) :=
  match s with
  | (none, s) => .done (.ok (false, s))
  | (itr, s) => match deref s.nodes itr with
    | .error e => .done (.error e)
    | .ok node =>
        let (dir, world) := (drivers node.vfsDriver).fsopendir path s.world
        let s := { s with world }
        match dir with
        | some _ => .done (.ok (true, s))
        | none => .next (node.next, s)

/-- The loop that links the new node behind the last one. Nothing leaves it. -/
def appendBody (nmnt : Nat) (s : Option Nat × VfsState W) :
    Iter (Option Nat × VfsState W) (Except Fault (Int × VfsState W)) :=
  match s with
  | (none, _) => .done (.error .nullPointer)
  | (some itr, s) => match deref s.nodes (some itr) with
    | .error e => .done (.error e)
    | .ok node => match node.next with
      | some b => .next (some b, s)
      | none =>
          let s := s.setNode itr { node with next := some nmnt }
          match deref s.nodes (some nmnt) with
          | .error e => .done (.error e)
          | .ok new => .next (some itr, s.setNode nmnt { new with prev := some itr })

def vfsMount (path : Option Str) (fs : Option Nat) (block : Option NodeBlock) (s : VfsState W) (fuel : Nat) :
    Option (Except Fault (Int × VfsState W)) :=
  match fs with
  | none => some (.ok (-1, s))
  | some fs => match s.vfsMfs with
    | none => match block with
      | none => some (.error .nullPointer)
      | some b =>
          some (.ok (0, { s.setNode b.addr ⟨rootPath, fs, b.prev, b.next⟩ with vfsMfs := some b.addr }))
    | some root => match path with
      | none => some (.ok (-1, s))
      | some path => match run (collisionBody drivers path) fuel (some root, s) with
        | none => none
        | some (.error e) => some (.error e)
        | some (.ok (true, s)) => some (.ok (-1, s))
        | some (.ok (false, s)) => match block with
          | none => some (.error .nullPointer)
          | some b => run (appendBody b.addr) fuel (s.vfsMfs, s.setNode b.addr ⟨path, fs, b.prev, b.next⟩)

end Mount

section Open

variable (drivers : Nat → FsDriver W)

def freeDir (s : VfsState W) : Option (Fin 16) :=
  (List.finRange 16).find? fun i => (s.vfsOpenDirs i).dir.isNone

/-- The first three descriptors are never given out. -/
def freeFile (s : VfsState W) : Option (Fin 64) :=
  ((List.finRange 64).drop 3).find? fun i =>
    (s.vfsOpenFiles i).filemeta.isNone && (s.vfsOpenFiles i).driver.isNone

def openDirOn (driver : Nat) (subpath : Str) (slot : Fin 16) (s : VfsState W) : Option Nat × VfsState W :=
  let (dir, world) := (drivers driver).fsopendir subpath s.world
  match dir with
  | some d => (some d, { s with
      world
      vfsOpenDirs := Function.update s.vfsOpenDirs slot ⟨some d, some driver⟩ })
  | none => (none, { s with world })

def opendirBody (path : Str) (slot : Fin 16) (s : Option Nat × VfsState W) :
    Iter (Option Nat × VfsState W) (Except Fault (Option Nat × VfsState W)) :=
  match s with
  | (none, s) => .done (.ok (none, s))
  | (itr, s) => match deref s.nodes itr with
    | .error e => .done (.error e)
    | .ok node =>
        if path.length < node.mountpath.length then
          -- the link is followed here and once more at the end of the body
          match deref s.nodes node.next with
          | .error e => .done (.error e)
          | .ok skipped => .next (skipped.next, s)
        else if path = node.mountpath then
          .done (.ok (openDirOn drivers node.vfsDriver [slash] slot s))
        else if node.mountpath <+: path then
          .done (.ok (openDirOn drivers node.vfsDriver (path.drop node.mountpath.length) slot s))
        else .next (node.next, s)

def opendir (path : Option Str) (s : VfsState W) (fuel : Nat) :
    Option (Except Fault (Option Nat × VfsState W)) :=
  match freeDir s, path, s.vfsMfs with
  | some slot, some path, some root => run (opendirBody drivers path slot) fuel (some root, s)
  | _, _, _ => some (.ok (none, s))

def closedir (dir : Option Nat) (s : VfsState W) : Except Fault (Int × VfsState W) :=
  match dir with
  | none => .ok (-1, s)
  | some d => match (List.finRange 16).find? fun i => (s.vfsOpenDirs i).dir == some d with
    | none => .ok (-1, s)
    | some i => match (s.vfsOpenDirs i).driver with
      | none => .error .nullPointer
      | some driver =>
          let (_, world) := (drivers driver).fsclosedir d s.world
          .ok (0, { s with world, vfsOpenDirs := Function.update s.vfsOpenDirs i ⟨none, none⟩ })

/-- Unlike opendir, it does not compare the path with the mount path beyond its
length, and goes on to the next system where a driver refuses. -/
def vfsfopenBody (path : Str) (vfsofindex : Fin 64) (s : Option Nat × VfsState W) :
    Iter (Option Nat × VfsState W) (Except Fault (Int × VfsState W)) :=
  match s with
  | (none, s) => .done (.ok (-1, s))
  | (itr, s) => match deref s.nodes itr with
    | .error e => .done (.error e)
    | .ok node =>
        if path.length < node.mountpath.length then
          match deref s.nodes node.next with
          | .error e => .done (.error e)
          | .ok skipped => .next (skipped.next, s)
        else if path = node.mountpath then .done (.ok (-1, s))
        else
          let subpath := path.drop node.mountpath.length
          let (filemeta, world) := (drivers node.vfsDriver).fsopenfile subpath s.world
          match filemeta with
          | some m => .done (.ok (vfsofindex.val, { s with
              world
              vfsOpenFiles := Function.update s.vfsOpenFiles vfsofindex ⟨some m, some node.vfsDriver⟩ }))
          | none => .next (node.next, { s with world })

def modeRead : Str := [0x72]

def vfsfopen (path : Option Str) (mode : Str) (s : VfsState W) (fuel : Nat) :
    Option (Except Fault (Int × VfsState W)) :=
  if mode ≠ modeRead then some (.ok (0, s))
  else match path, s.vfsMfs, freeFile s with
    | some path, some root, some vfsofindex =>
        run (vfsfopenBody drivers path vfsofindex) fuel (some root, s)
    | _, _, _ => some (.ok (-1, s))

/-- The descriptor indexes the table unchecked. -/
def vfsfclose (fd : Int) (s : VfsState W) : Except Fault (Int × VfsState W) :=
  if h : fd.toNat < 64 ∧ 0 ≤ fd then
    let i : Fin 64 := ⟨fd.toNat, h.1⟩
    match (s.vfsOpenFiles i).filemeta, (s.vfsOpenFiles i).driver with
    | some m, some driver =>
        let (_, world) := (drivers driver).fsclosefile m s.world
        .ok (0, { s with world, vfsOpenFiles := Function.update s.vfsOpenFiles i ⟨none, none⟩ })
    | _, _ => .ok (-1, s)
  else .error .outOfBounds

end Open

section Files

variable (drivers : Nat → FileDriver W)

/-- The object and the driver of a descriptor, if neither is NULL. It indexes the table
unchecked here as well. -/
def fileOf (fd : Int) (s : VfsState W) : Except Fault (Option (Nat × Nat)) :=
  if h : fd.toNat < 64 ∧ 0 ≤ fd then
    match (s.vfsOpenFiles ⟨fd.toNat, h.1⟩).filemeta, (s.vfsOpenFiles ⟨fd.toNat, h.1⟩).driver with
    | some m, some driver => .ok (some (m, driver))
    | _, _ => .ok none
  else .error .outOfBounds

/-- What the driver returns is converted to size_t. -/
def vfsfread (ptr : Nat) (size nmemb : U32) (fd : Int) (s : VfsState W) : Except Fault (U32 × VfsState W) :=
  match fileOf fd s with
  | .error e => .error e
  | .ok none => .ok (-1, s)
  | .ok (some (m, driver)) =>
      let (r, world) := (drivers driver).fsreadfile ptr (size * nmemb) m (drivers driver).nativeFs s.world
      .ok (BitVec.ofInt 32 r, { s with world })

def vfsfstat (fd : Int) (pstat : Nat) (s : VfsState W) : Except Fault (Int × VfsState W) :=
  match fileOf fd s with
  | .error e => .error e
  | .ok none => .ok (-1, s)
  | .ok (some (m, driver)) =>
      let (r, world) := (drivers driver).fsfstat m (drivers driver).nativeFs pstat s.world
      .ok (r, { s with world })

end Files

end MetalNes.Vfs
