import MetalNes.Words
import MetalNes.Loop

namespace MetalNes.Fat32

open Loop

def FAT_ARCHIVE_ENT : U8 := 0x20
def FAT_DIR_ENT : U8 := 0x10
def FAT_LONG_NAME_ENT : U8 := 0x0F

def DT_DIR : U8 := 4
def DT_REG : U8 := 8

/-- A block device: the bytes a read leaves in the buffer, and its return value. -/
structure BlockDevice where
  readblocks : U32 → U32 → List U8 × U32

structure FatBpb where
  bytesPerSector : U16
  sectorsPerCluster : U8

structure FatFs where
  fattlb : List U32
  dev : BlockDevice
  bpb : FatBpb
  firstdatalba : U32
  clustersize : U32

def clustersizeOf (bpb : FatBpb) : U32 :=
  bpb.bytesPerSector.setWidth 32 * bpb.sectorsPerCluster.setWidth 32

inductive Fault
  | outOfBounds
  | nullPointer
  deriving DecidableEq, Repr

def fatClustertolba (fs : FatFs) (clusternum : U32) : U32 :=
  fs.firstdatalba + fs.bpb.sectorsPerCluster.setWidth 32 * (clusternum - 2)

def countBody (fs : FatFs) : U32 × U32 → Iter (U32 × U32) (Except Fault U32)
  | (count, clusternum) =>
    match fs.fattlb[clusternum.toNat]? with
    | none => .done (.error .outOfBounds)
    | some entry =>
      if entry &&& 0x0FFFFFFF ≥ 0x0FFFFFF8 then .done (.ok count)
      else .next (count + 1, entry &&& 0x0FFFFFFF)

def fatGetclustercount (fuel : Nat) (clusterroot : U32) (fs : FatFs) : Option (Except Fault U32) :=
  run (countBody fs) fuel (1, clusterroot)

/-- What the device stores at a position of the buffer, if it fits in. -/
def storeAt (data : List U8) (ptr : Nat) (bytes : List U8) : Option (List U8) :=
  if ptr + bytes.length ≤ data.length then
    some (data.take ptr ++ bytes ++ data.drop (ptr + bytes.length))
  else none

/-- The variables of fat_getdata, the buffer pointer as an offset. -/
structure Reading where
  data : List U8
  bufptr : Nat
  clusternum : U32
  clustercount : U32
  readcount : U32

def readBody (fs : FatFs) (v : Reading) : Iter Reading (Except Fault (List U8 × U32)) :=
  let lba := fatClustertolba fs v.clusternum
  let (bytes, ret) := fs.dev.readblocks lba (fs.bpb.sectorsPerCluster.setWidth 32)
  match storeAt v.data v.bufptr bytes with
  | none => .done (.error .outOfBounds)
  | some data =>
    let readcount := v.readcount + ret
    let clustercount := v.clustercount - 1
    if clustercount ≠ 0 then
      match fs.fattlb[v.clusternum.toNat]? with
      | none => .done (.error .outOfBounds)
      | some entry =>
        let clusternum := entry &&& 0x0FFFFFFF
        .next ⟨data, v.bufptr + fs.clustersize.toNat, clusternum, clustercount, readcount⟩
    else .done (.ok (data, readcount))

def fatGetdata (fuel : Nat) (malloc : U32 → Option (List U8)) (clusterroot : U32) (fs : FatFs) :
    Option (Except Fault (List U8 × U32)) :=
  match fatGetclustercount fuel clusterroot fs with
  | none => none
  | some (.error e) => some (.error e)
  | some (.ok clustercount) =>
    match malloc (fs.clustersize * clustercount) with
    | none => some (.error .nullPointer)
    | some data => run (readBody fs) fuel ⟨data, 0, clusterroot, clustercount, 0⟩

def sizeofDirent : Nat := 32

structure Dirent where
  dType : U8
  dName : Nat → U8

structure FatDir where
  data : List U8
  readptr : Nat
  size : Nat
  deriving DecidableEq, Repr

def attrflag (buffer : List U8) (slot : Nat) : Option U8 := buffer[slot + 11]?

def bytesAt (buffer : List U8) (ptr len : Nat) : List U8 := (buffer.drop ptr).take len

/-- memcpy of the eleven bytes of a short name. The terminator goes one place too
far, so the byte before it keeps its old value. -/
def copyName (old : Nat → U8) (name : List U8) : Nat → U8 := fun i =>
  if i < 11 then name.getD i 0 else if i = 12 then 0 else old i

def lentChars (buffer : List U8) (lent : Nat) : List U8 :=
  (bytesAt buffer (lent + 1) 10 ++ bytesAt buffer (lent + 14) 12 ++
    bytesAt buffer (lent + 28) 4).filter fun c => c ≠ 0x0 ∧ c ≠ 0xFF

def copyLongName (old : Nat → U8) (chars : List U8) : Nat → U8 := fun i =>
  if i < chars.length then chars.getD i 0 else if i = chars.length then 0 else old i

/-- The parser of fat_getdirent behind the test for a long name entry: the
offset of the entry, and the offset to return. -/
def parseEntry (buffer : List U8) (fdir nextoffset : Nat) (out : Dirent) : Option (Int × Dirent) :=
  match attrflag buffer fdir with
  | none => none
  | some attr =>
    if attr = FAT_DIR_ENT ∨ attr = FAT_ARCHIVE_ENT then
      let dName :=
        if nextoffset = sizeofDirent then copyName out.dName (bytesAt buffer fdir 11)
        else copyLongName out.dName (lentChars buffer (fdir - sizeofDirent))
      some (nextoffset, { dName, dType := if attr = FAT_DIR_ENT then DT_DIR else DT_REG })
    else some (-1, out)

/-- The offset returned and the dirent, or nothing where the slot is not in the
buffer. -/
def fatGetdirent (buffer : List U8) (ptr : Nat) (out : Dirent) : Option (Int × Dirent) :=
  match attrflag buffer ptr with
  | none => none
  | some attr =>
    if attr = FAT_LONG_NAME_ENT then
      parseEntry buffer (ptr + sizeofDirent) (sizeofDirent + sizeofDirent) out
    else parseEntry buffer ptr sizeofDirent out

def fatReaddir (dir : FatDir) (rdir : Dirent) : Option (Option Dirent × FatDir × Dirent) :=
  if dir.readptr < dir.size then
    match fatGetdirent dir.data dir.readptr rdir with
    | none => none
    | some (next, rdir) =>
      if next = -1 then some (none, { dir with readptr := dir.readptr + sizeofDirent }, rdir)
      else some (some rdir, { dir with readptr := dir.readptr + next.toNat }, rdir)
  else some (none, dir, rdir)

def fatRewinddir (dir : FatDir) : FatDir := { dir with readptr := 0 }

end MetalNes.Fat32
