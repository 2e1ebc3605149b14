import MetalNes.ByteWords
import MetalNes.PageChunks

namespace MetalNes.Liballoc

open ByteWords Loop
open PageChunks (NULL)

def LIBALLOC_MAGIC : U32 := 0xc001c0de
def MAXCOMPLETE : Int := 5
def MAXEXP : Nat := 32
def MINEXP : Nat := 8
def MODE : Int := 0

def pageSize : U32 := 4096
def pageCount : U32 := 16

/-- The members of struct boundary_tag, one word each. -/
inductive Field
  | magic | size | realSize | index | splitLeft | splitRight | next | prev
  deriving DecidableEq

def Field.offset : Field → Nat
  | .magic => 0
  | .size => 4
  | .realSize => 8
  | .index => 12
  | .splitLeft => 16
  | .splitRight => 20
  | .next => 24
  | .prev => 28

def sizeofTag : U32 := 32

def get (mem : Bytes) (tag : U32) (f : Field) : U32 := load mem (tag.toNat + f.offset)

def set (mem : Bytes) (tag : U32) (f : Field) (v : U32) : Bytes := store mem (tag.toNat + f.offset) v

/-- What liballoc.c keeps, in memory and in its statics, and the state behind its hooks. -/
structure Heap (σ : Type) where
  mem : Bytes
  freePages : Int → U32
  completePages : Int → Int
  initialized : Bool
  below : σ

/-- The hooks for whole pages. A call that never returns is none. -/
structure Hooks (σ : Type) where
  liballocAlloc : σ → Bytes → U32 → Option (U32 × σ × Bytes)
  liballocFree : σ → Bytes → U32 → U32 → Option (σ × Bytes)

variable {σ : Type}

/-- The loop in getexp, with the number of passes that are left before MAXEXP. -/
def getexpLoop (size : U32) : Nat → Nat → Nat
  | 0, shift => shift
  | passes + 1, shift => if (1 : U32) <<< shift > size then shift else getexpLoop size passes (shift + 1)

def getexp (size : U32) : Int :=
  if size < (1 : U32) <<< MINEXP then -1 else getexpLoop size (MAXEXP - MINEXP) MINEXP - 1

/-- The index of a size, raised to MINEXP where getexp is below it. -/
def bucketOf (size : U32) : Int := if getexp size < MINEXP then MINEXP else getexp size

def indexOf (mem : Bytes) (tag : U32) : Int := (get mem tag .index).toInt

def insertTag (h : Heap σ) (tag : U32) (index : Int) : Heap σ :=
  let realIndex := if index < 0 then bucketOf (get h.mem tag .realSize - sizeofTag) else index
  let first := h.freePages realIndex
  let mem := set h.mem tag .index (BitVec.ofInt 32 realIndex)
  let mem := if first ≠ NULL then set (set mem first .prev tag) tag .next first else mem
  { h with mem, freePages := Function.update h.freePages realIndex tag }

def removeTag (h : Heap σ) (tag : U32) : Heap σ :=
  let index := indexOf h.mem tag
  let freePages :=
    if h.freePages index = tag then Function.update h.freePages index (get h.mem tag .next) else h.freePages
  let mem := h.mem
  let mem := if get mem tag .prev ≠ NULL then set mem (get mem tag .prev) .next (get mem tag .next) else mem
  let mem := if get mem tag .next ≠ NULL then set mem (get mem tag .next) .prev (get mem tag .prev) else mem
  let mem := set (set (set mem tag .next NULL) tag .prev NULL) tag .index (-1)
  { h with mem, freePages }

def meltLeft (mem : Bytes) (tag : U32) : Bytes × U32 :=
  let left := get mem tag .splitLeft
  let mem := set mem left .realSize (get mem left .realSize + get mem tag .realSize)
  let mem := set mem left .splitRight (get mem tag .splitRight)
  let mem := if get mem tag .splitRight ≠ NULL then set mem (get mem tag .splitRight) .splitLeft left else mem
  (mem, left)

def absorbRight (h : Heap σ) (tag : U32) : Heap σ :=
  let right := get h.mem tag .splitRight
  let h := removeTag h right
  let mem := set h.mem tag .realSize (get h.mem tag .realSize + get h.mem right .realSize)
  let mem := set mem tag .splitRight (get mem right .splitRight)
  let mem := if get mem right .splitRight ≠ NULL then set mem (get mem right .splitRight) .splitLeft tag else mem
  { h with mem }

def linkNewTag (mem : Bytes) (tag newTag remainder : U32) : Bytes :=
  let mem := set (set mem newTag .magic LIBALLOC_MAGIC) newTag .realSize remainder
  let mem := set (set mem newTag .next NULL) newTag .prev NULL
  let mem := set mem newTag .splitLeft tag
  let mem := set mem newTag .splitRight (get mem tag .splitRight)
  let mem :=
    if get mem newTag .splitRight ≠ NULL then set mem (get mem newTag .splitRight) .splitLeft newTag else mem
  let mem := set mem tag .splitRight newTag
  set mem tag .realSize (get mem tag .realSize - get mem newTag .realSize)

def splitTag (h : Heap σ) (tag : U32) : Heap σ :=
  let remainder := get h.mem tag .realSize - sizeofTag - get h.mem tag .size
  let newTag := tag + sizeofTag + get h.mem tag .size
  insertTag { h with mem := linkNewTag h.mem tag newTag remainder } newTag (-1)

def pagesFor (size : U32) : U32 :=
  let usage := size + sizeofTag
  let pages := if usage % pageSize ≠ 0 then usage / pageSize + 1 else usage / pageSize
  if pages < pageCount then pageCount else pages

def freshTag (mem : Bytes) (tag size pages : U32) : Bytes :=
  let mem := set (set mem tag .magic LIBALLOC_MAGIC) tag .size size
  let mem := set (set mem tag .realSize (pages * pageSize)) tag .index (-1)
  let mem := set (set mem tag .next NULL) tag .prev NULL
  set (set mem tag .splitLeft NULL) tag .splitRight NULL

def allocateNewTag (hooks : Hooks σ) (h : Heap σ) (size : U32) : Option (Heap σ × U32) :=
  let pages := pagesFor size
  (hooks.liballocAlloc h.below h.mem pages).map fun (tag, below, mem) =>
    if tag = NULL then ({ h with mem, below }, NULL)
    else ({ h with mem := freshTag mem tag size pages, below }, tag)

/-- What the first call of malloc does to the statics. -/
def initLists (h : Heap σ) : Heap σ :=
  if h.initialized then h
  else { h with
    freePages := fun i => if 0 ≤ i ∧ i < MAXEXP then NULL else h.freePages i
    completePages := fun i => if 0 ≤ i ∧ i < MAXEXP then 0 else h.completePages i
    initialized := true }

/-- One pass of the search through the tags of one index. -/
def searchBody (mem : Bytes) (size tag : U32) : Iter U32 U32 :=
  if tag = NULL then .done tag
  else if get mem tag .realSize - sizeofTag ≥ size + sizeofTag then .done tag
  else .next (get mem tag .next)

def isWhole (mem : Bytes) (tag : U32) : Bool :=
  get mem tag .splitLeft = NULL ∧ get mem tag .splitRight = NULL

/-- A tag that was found is taken from the free tags of its index. -/
def takeTag (h : Heap σ) (tag : U32) (index : Int) : Heap σ :=
  let h := removeTag h tag
  if isWhole h.mem tag then
    { h with completePages := Function.update h.completePages index (h.completePages index - 1) }
  else h

/-- The end of malloc: the size is set, and space that is left over gets a tag of its own. -/
def carveTag (h : Heap σ) (tag size : U32) : Heap σ × U32 :=
  let h := { h with mem := set h.mem tag .size size }
  let remainder := get h.mem tag .realSize - size - sizeofTag * 2
  if 0 < remainder.toInt ∧ 0 ≤ getexp remainder then (splitTag h tag, tag + sizeofTag)
  else (h, tag + sizeofTag)

def malloc (hooks : Hooks σ) (fuel : Nat) (h : Heap σ) (size : U32) : Option (Heap σ × U32) :=
  let h := initLists h
  let index : Int := if getexp size + MODE < MINEXP then MINEXP else getexp size + MODE
  (run (searchBody h.mem size) fuel (h.freePages index)).bind fun tag =>
    if tag = NULL then
      (allocateNewTag hooks h size).map fun (h, tag) => if tag = NULL then (h, NULL) else carveTag h tag size
    else some (carveTag (takeTag h tag index) tag size)

def meltLeftBody : Heap σ × U32 → Iter (Heap σ × U32) (Heap σ × U32) := fun (h, tag) =>
  if get h.mem tag .splitLeft ≠ NULL ∧ 0 ≤ indexOf h.mem (get h.mem tag .splitLeft) then
    let (mem, tag) := meltLeft h.mem tag
    .next (removeTag { h with mem } tag, tag)
  else .done (h, tag)

def meltRightBody : Heap σ × U32 → Iter (Heap σ × U32) (Heap σ × U32) := fun (h, tag) =>
  if get h.mem tag .splitRight ≠ NULL ∧ 0 ≤ indexOf h.mem (get h.mem tag .splitRight) then
    .next (absorbRight h tag, tag)
  else .done (h, tag)

def pagesOf (realSize : U32) : U32 :=
  let pages := if realSize % pageSize ≠ 0 then realSize / pageSize + 1 else realSize / pageSize
  if pages < pageCount then pageCount else pages

/-- The end of free: a whole tag too many goes back to the hook, any other one to its index. -/
def returnTag (hooks : Hooks σ) (h : Heap σ) (tag : U32) : Option (Heap σ) :=
  let index := bucketOf (get h.mem tag .realSize - sizeofTag)
  if isWhole h.mem tag then
    if h.completePages index = MAXCOMPLETE then
      (hooks.liballocFree h.below h.mem tag (pagesOf (get h.mem tag .realSize))).map fun (below, mem) =>
        { h with mem, below }
    else
      let h := { h with completePages := Function.update h.completePages index (h.completePages index + 1) }
      some (insertTag h tag index)
  else some (insertTag h tag index)

def free (hooks : Hooks σ) (fuel : Nat) (h : Heap σ) (ptr : U32) : Option (Heap σ) :=
  if ptr = NULL then some h
  else
    let tag := ptr - sizeofTag
    if get h.mem tag .magic ≠ LIBALLOC_MAGIC then some h
    else
      (run meltLeftBody fuel (h, tag)).bind fun s =>
        (run meltRightBody fuel s).bind fun (h, tag) => returnTag hooks h tag

def liballocMemset (mem : Bytes) (s : U32) (c : U8) (n : U32) : Bytes :=
  (List.range n.toNat).foldl (fun mem i => Function.update mem (s + BitVec.ofNat 32 i).toNat c) mem

/-- The loop over words in liballoc_memcpy, and how many bytes it leaves. -/
def copyWords (mem : Bytes) (ldest lsrc : U32) : Nat → Bytes × U32 × U32 × Nat
  | n + 4 => copyWords (store mem ldest.toNat (load mem lsrc.toNat)) (ldest + 4) (lsrc + 4) n
  | n => (mem, ldest, lsrc, n)

def copyBytes (mem : Bytes) (cdest csrc : U32) : Nat → Bytes
  | n + 1 => copyBytes (Function.update mem cdest.toNat (mem csrc.toNat)) (cdest + 1) (csrc + 1) n
  | 0 => mem

def liballocMemcpy (mem : Bytes) (s1 s2 n : U32) : Bytes :=
  let (mem, cdest, csrc, n) := copyWords mem s1 s2 n.toNat
  copyBytes mem cdest csrc n

def calloc (hooks : Hooks σ) (fuel : Nat) (h : Heap σ) (nobj size : U32) : Option (Heap σ × U32) :=
  let realSize := nobj * size
  (malloc hooks fuel h realSize).map fun (h, p) => ({ h with mem := liballocMemset h.mem p 0 realSize }, p)

def realloc (hooks : Hooks σ) (fuel : Nat) (h : Heap σ) (p size : U32) : Option (Heap σ × U32) :=
  if size = 0 then (free hooks fuel h p).map fun h => (h, NULL)
  else if p = NULL then malloc hooks fuel h size
  else
    let tag := p - sizeofTag
    let realSize := if get h.mem tag .size > size then size else get h.mem tag .size
    (malloc hooks fuel h size).bind fun (h, ptr) =>
      (free hooks fuel { h with mem := liballocMemcpy h.mem ptr p realSize } p).map fun h => (h, ptr)

end MetalNes.Liballoc
