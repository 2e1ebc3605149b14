import MetalNes.Loop
import MetalNes.Words
import Mathlib.Logic.Function.Basic

namespace MetalNes.PageChunks

open Loop

/-- Words of physical memory by byte address. The chunk headers are part of it. -/
abbrev Memory := U32 → U32

def NULL : U32 := 0

/-- The amount of memory the makefile compiles in, in megabytes. -/
def SYS_MEM : U32 := 128

/-- Where the linker script may end the kernel image: past the load address and
the stack, at a page boundary, inside the memory of the board. -/
structure KernelImage where
  kernelEnd : U32
  above : 0x20000 ≤ kernelEnd.toNat
  aligned : 4096 ∣ kernelEnd.toNat
  fits : kernelEnd.toNat ≤ SYS_MEM.toNat * (1024 * 1024)

theorem KernelImage.end_le (k : KernelImage) : k.kernelEnd.toNat ≤ 134217728 := k.fits

-- struct MemChunk: pageCount, prev and next are words at offsets 0, 4 and 8
def pageCount (mem : Memory) (chunk : U32) : U32 := mem chunk
def prev (mem : Memory) (chunk : U32) : U32 := mem (chunk + 4)
def next (mem : Memory) (chunk : U32) : U32 := mem (chunk + 8)

def setPageCount (mem : Memory) (chunk v : U32) : Memory := Function.update mem chunk v
def setPrev (mem : Memory) (chunk v : U32) : Memory := Function.update mem (chunk + 4) v
def setNext (mem : Memory) (chunk v : U32) : Memory := Function.update mem (chunk + 8) v

structure Pmm where
  mem : Memory
  rootMemNode : U32
  memFree : U32
  memUsed : U32

def initPmm (k : KernelImage) (mem : Memory) : Pmm :=
  let kstart := k.kernelEnd
  let avalMem := SYS_MEM
  let sysMem := avalMem * 1024 * 1024 - kstart
  let mem := setPrev mem kstart NULL
  let mem := setNext mem kstart NULL
  let mem := setPageCount mem kstart (sysMem / 4096)
  { mem, rootMemNode := kstart, memFree := sysMem, memUsed := avalMem - sysMem }

def mergeChunks (mem : Memory) (prior freed post : U32) : Memory :=
  let (mem, freed) :=
    if prior ≠ NULL ∧ prior + pageCount mem prior * 4096 = freed then
      let mem := setPageCount mem prior (pageCount mem prior + pageCount mem freed)
      (setNext mem prior post, prior)
    else (mem, freed)
  if post ≠ NULL ∧ freed + pageCount mem freed * 4096 = post then
    let mem := setPageCount mem freed (pageCount mem freed + pageCount mem post)
    setNext mem freed (next mem post)
  else mem

def takeChunk (s : Pmm) (numOfPages chunk : U32) : Pmm :=
  let s :=
    if prev s.mem chunk ≠ NULL then
      if next s.mem chunk ≠ NULL then
        { s with mem := setNext s.mem (prev s.mem chunk) (next s.mem chunk) }
      else { s with mem := setNext s.mem (prev s.mem chunk) NULL }
    else if next s.mem chunk ≠ NULL then { s with rootMemNode := next s.mem chunk }
    else { s with rootMemNode := NULL }
  { s with memUsed := s.memUsed + numOfPages * 4096 }

def splitHeader (mem : Memory) (numOfPages chunk : U32) : Memory :=
  let newChunk := chunk + numOfPages * 4096
  let mem := setNext mem newChunk (next mem chunk)
  let mem := setPrev mem newChunk (prev mem chunk)
  setPageCount mem newChunk (pageCount mem chunk - numOfPages)

def splitChunk (s : Pmm) (numOfPages chunk : U32) : Pmm :=
  let newChunk := chunk + numOfPages * 4096
  let mem := splitHeader s.mem numOfPages chunk
  let s :=
    if prev mem chunk ≠ NULL then { s with mem := setNext mem (prev mem chunk) newChunk }
    else { s with mem, rootMemNode := newChunk }
  { s with memUsed := s.memUsed + numOfPages * 4096 }

/-- One pass of the loop in allocPage. The pointer moves only inside the branch
for a large enough chunk, after both cases of that branch have returned. -/
def allocBody (s : Pmm) (numOfPages chunk : U32) : Iter U32 (Pmm × U32) :=
  if chunk = NULL then .done (s, NULL)
  else if numOfPages ≤ pageCount s.mem chunk then
    if pageCount s.mem chunk = numOfPages then .done (takeChunk s numOfPages chunk, chunk)
    else if numOfPages < pageCount s.mem chunk then .done (splitChunk s numOfPages chunk, chunk)
    else .next (prev s.mem chunk)
  else .next chunk

def allocPage (fuel : Nat) (s : Pmm) (numOfPages : U32) : Option (Pmm × U32) :=
  if s.rootMemNode ≠ NULL then run (allocBody s numOfPages) fuel s.rootMemNode
  else some (s, NULL)

def insertChunk (mem : Memory) (addr numOfPages chunk : U32) : Memory :=
  let mem := setPageCount mem addr numOfPages
  let mem := setNext mem addr chunk
  let mem := setPrev mem addr (prev mem chunk)
  mergeChunks mem (prev mem chunk) addr chunk

/-- One pass of the loop in freePage, which never advances to the next chunk. -/
def freeBody (mem : Memory) (addr numOfPages chunk : U32) : Iter U32 Memory :=
  if chunk = NULL then .done mem
  else if addr < chunk then .done (insertChunk mem addr numOfPages chunk)
  else .next chunk

def freePage (fuel : Nat) (s : Pmm) (addr numOfPages : U32) : Option Pmm :=
  if addr ≠ NULL ∧ numOfPages ≠ 0 then
    let relinked :=
      if s.rootMemNode ≠ NULL then
        (run (freeBody s.mem addr numOfPages) fuel s.rootMemNode).map fun mem => { s with mem }
      else
        let mem := setPageCount s.mem addr numOfPages
        let mem := setPrev mem addr NULL
        some { s with mem := setNext mem addr NULL, rootMemNode := addr }
    relinked.map fun s => { s with memUsed := s.memUsed - numOfPages * 4096 }
  else some s

section Fields

variable (mem : Memory) (chunk v : U32)

@[simp] theorem pageCount_setPageCount : pageCount (setPageCount mem chunk v) chunk = v := by
  simp [pageCount, setPageCount]

@[simp] theorem pageCount_setPrev : pageCount (setPrev mem chunk v) chunk = pageCount mem chunk := by
  simp [pageCount, setPrev]

@[simp] theorem pageCount_setNext : pageCount (setNext mem chunk v) chunk = pageCount mem chunk := by
  simp [pageCount, setNext]

@[simp] theorem prev_setPageCount : prev (setPageCount mem chunk v) chunk = prev mem chunk := by
  simp [prev, setPageCount]

@[simp] theorem prev_setPrev : prev (setPrev mem chunk v) chunk = v := by
  simp [prev, setPrev]

@[simp] theorem prev_setNext : prev (setNext mem chunk v) chunk = prev mem chunk := by
  simp [prev, setNext]

@[simp] theorem next_setPageCount : next (setPageCount mem chunk v) chunk = next mem chunk := by
  simp [next, setPageCount]

@[simp] theorem next_setPrev : next (setPrev mem chunk v) chunk = next mem chunk := by
  simp [next, setPrev]

@[simp] theorem next_setNext : next (setNext mem chunk v) chunk = v := by
  simp [next, setNext]

end Fields

def HeadersApart (p q : U32) : Prop :=
  (p.toNat + 12 ≤ q.toNat ∧ q.toNat + 12 ≤ 2 ^ 32) ∨
    (q.toNat + 12 ≤ p.toNat ∧ p.toNat + 12 ≤ 2 ^ 32)

structure SameHeader (mem mem' : Memory) (chunk : U32) : Prop where
  pageCount_eq : pageCount mem' chunk = pageCount mem chunk
  prev_eq : prev mem' chunk = prev mem chunk
  next_eq : next mem' chunk = next mem chunk

theorem SameHeader.refl (mem : Memory) (chunk : U32) : SameHeader mem mem chunk := ⟨rfl, rfl, rfl⟩

theorem SameHeader.trans {mem mem' mem'' : Memory} {chunk : U32} (h : SameHeader mem mem' chunk)
    (h' : SameHeader mem' mem'' chunk) : SameHeader mem mem'' chunk :=
  ⟨h'.pageCount_eq.trans h.pageCount_eq, h'.prev_eq.trans h.prev_eq, h'.next_eq.trans h.next_eq⟩

theorem sameHeader_update {mem : Memory} {chunk a : U32} (h0 : chunk ≠ a) (h4 : chunk + 4 ≠ a)
    (h8 : chunk + 8 ≠ a) (v : U32) : SameHeader mem (Function.update mem a v) chunk :=
  ⟨Function.update_of_ne h0 _ _, Function.update_of_ne h4 _ _, Function.update_of_ne h8 _ _⟩

section Apart

variable {p q : U32} (mem : Memory) (v : U32)

theorem HeadersApart.setPageCount (h : HeadersApart p q) :
    SameHeader mem (setPageCount mem p v) q := by
  unfold HeadersApart at h
  exact sameHeader_update (by bv_omega) (by bv_omega) (by bv_omega) v

theorem HeadersApart.setPrev (h : HeadersApart p q) : SameHeader mem (setPrev mem p v) q := by
  unfold HeadersApart at h
  exact sameHeader_update (by bv_omega) (by bv_omega) (by bv_omega) v

theorem HeadersApart.setNext (h : HeadersApart p q) : SameHeader mem (setNext mem p v) q := by
  unfold HeadersApart at h
  exact sameHeader_update (by bv_omega) (by bv_omega) (by bv_omega) v

theorem splitHeader_sameHeader {n : U32} (h : HeadersApart (p + n * 4096) p) :
    SameHeader mem (splitHeader mem n p) p :=
  (((h.setNext mem _).trans (h.setPrev _ _)).trans (h.setPageCount _ _))

theorem splitHeader_new {n : U32} (h : HeadersApart (p + n * 4096) p) :
    pageCount (splitHeader mem n p) (p + n * 4096) = pageCount mem p - n ∧
      prev (splitHeader mem n p) (p + n * 4096) = prev mem p ∧
      next (splitHeader mem n p) (p + n * 4096) = next mem p := by
  have h1 := h.setNext mem (next mem p)
  have h2 := h1.trans (h.setPrev _ (prev (setNext mem (p + n * 4096) (next mem p)) p))
  refine ⟨?_, ?_, ?_⟩
  · rw [splitHeader, pageCount_setPageCount, h2.pageCount_eq]
  · rw [splitHeader, prev_setPageCount, prev_setPrev, h1.prev_eq]
  · rw [splitHeader, next_setPageCount, next_setPrev, next_setNext]

end Apart

end MetalNes.PageChunks
