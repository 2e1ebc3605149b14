import MetalNes.ShortReads

namespace MetalNes.FileBounds

open Loop LinkedPath CStrings Fat32 ClusterChains FatFiles FileReads TableWalks ShortReads

variable {fuel : Nat} {allocs : Allocs} {malloc : U32 → Option (List U8)} {fs : MountedFs} {f g : FatFile}

/-- One file is what a read has made of the other. -/
def AfterRead (f g : FatFile) : Prop := ∃ size bytes ret, fatFread size f = .ok (bytes, ret, g)

/-- The call copies bytes of the buffer from the position on, no more of them than were
asked for, and leaves the position in the buffer. -/
def Stays (file : FatFile) (size : U32) : Prop :=
  ∃ bytes ret file', fatFread size file = .ok (bytes, ret, file') ∧
    bytes = bytesAt file.data file.dataptr bytes.length ∧
    file.dataptr + bytes.length ≤ file.buffersize.toNat ∧ bytes.length ≤ size.toNat ∧
    file'.data = file.data ∧ file'.buffersize = file.buffersize ∧ file'.dataptr ≤ file.buffersize.toNat

/-- The position is in the buffer, and the buffer in its block. -/
structure InBuffer (f : FatFile) : Prop where
  position : f.dataptr ≤ f.buffersize.toNat
  room : f.buffersize.toNat ≤ f.data.length
  block : f.data.length < 2 ^ 32

theorem length_cutBytes (hf : InBuffer f) (n : Nat) :
    (cutBytes f n).length = min n (f.buffersize.toNat - f.dataptr) := by
  have hroom := hf.room
  rw [cutBytes, bytesAt, List.length_take, List.length_drop]
  omega

theorem InBuffer.stays (hf : InBuffer f) {size : U32} (hn : f.dataptr + size.toNat < 2 ^ 32) : Stays f size := by
  obtain ⟨ret, hread⟩ := fatFread_within hf.room hf.position hn
  have hlen := length_cutBytes hf size.toNat
  have hposition := hf.position
  refine ⟨_, ret, _, hread, ?_, ?_, ?_, rfl, rfl, Nat.min_le_right _ _⟩
  · rw [hlen, cutBytes]
  · omega
  · omega

theorem InBuffer.stays_iff (hf : InBuffer f) (size : U32) : Stays f size ↔ f.dataptr + size.toNat < 2 ^ 32 := by
  constructor
  · rintro ⟨bytes, ret, f', hread, -⟩
    by_contra hn
    rw [fatFread_beyond hf.position hf.block (not_lt.mp hn)] at hread
    cases hread
  · exact hf.stays

theorem InBuffer.step (hf : InBuffer f) (h : AfterRead f g) : InBuffer g := by
  obtain ⟨size, bytes, ret, hread⟩ := h
  by_cases hn : f.dataptr + size.toNat < 2 ^ 32
  · obtain ⟨ret', hread'⟩ := fatFread_within hf.room hf.position hn
    cases hread'.symm.trans hread
    exact ⟨Nat.min_le_right _ _, hf.room, hf.block⟩
  · rw [fatFread_beyond hf.position hf.block (not_lt.mp hn)] at hread
    cases hread

theorem InBuffer.run (hf : InBuffer f) (h : Relation.ReflTransGen AfterRead f g) : InBuffer g := by
  induction h with
  | refl => exact hf
  | tail _ hstep ih => exact ih.step hstep

theorem InBuffer.of_loaded {n : Nat} (hreads : ReadsAtMost fs.toFatFs n)
    (hm : ∀ n data, malloc n = some data → data.length = n.toNat) (h : Loaded fuel malloc fs f) : InBuffer f := by
  obtain ⟨cs, hchain⟩ := chain_of_getdata h.data
  obtain ⟨hsize, hroom, hblock⟩ := fatGetdata_counted hreads hm hchain h.data
  refine ⟨?_, hsize.trans hroom, hblock⟩
  rw [h.start]
  exact Nat.zero_le _

/-- For every file, after any reads, and for every size: the read stays in the buffer
exactly if position and size together are less than 32 bits hold. -/
theorem fatFread_stays_iff {n : Nat} (hreads : ReadsAtMost fs.toFatFs n)
    (hm : ∀ n data, malloc n = some data → data.length = n.toNat) {path : Str} {rdir : Dirent}
    (hopen : fatFopen fuel allocs malloc fs path rdir = some (.ok (some f)))
    (hreached : Relation.ReflTransGen AfterRead f g) (size : U32) :
    Stays g size ↔ g.dataptr + size.toNat < 2 ^ 32 :=
  ((InBuffer.of_loaded hreads hm (fatFopen_loaded hopen)).run hreached).stays_iff size

section Example

def wholeFile : FatFile := ⟨List.replicate 512 0x55 ++ List.replicate 0 0x00, 0, 512, 8, 3⟩

def oneByteOn : FatFile := { wholeFile with dataptr := 1 }

theorem wholeFile_read : Relation.ReflTransGen AfterRead wholeFile oneByteOn :=
  .single ⟨1, [0x55], 1, by decide +kernel⟩

theorem oneByteOn_stays : Stays oneByteOn 1000 :=
  (fatFread_stays_iff (mmci_readsAtMost (fileCard 512) rfl) length_cleared (file_opened (Or.inl rfl))
    wholeFile_read 1000).mpr (by decide)

/-- Behind one byte, a read of all that a size can say is not cut, and copies from far
outside the buffer. -/
theorem oneByteOn_leaves : ReadsAtMost (fileFs 512).toFatFs (sectors (fileFs 512).toFatFs * 512) ∧
    fatFopen 3 ⟨fun _ => cleared, blank⟩ cleared (fileFs 512) [0x41] blank = some (.ok (some wholeFile)) ∧
    Relation.ReflTransGen AfterRead wholeFile oneByteOn ∧ ¬ Stays oneByteOn 0xFFFFFFFF := by
  refine ⟨mmci_readsAtMost (fileCard 512) rfl, file_opened (Or.inl rfl), wholeFile_read, ?_⟩
  rintro ⟨bytes, ret, file', hread, -⟩
  have herror : fatFread 0xFFFFFFFF oneByteOn = .error .outOfBounds := by decide +kernel
  cases herror.symm.trans hread

end Example

end MetalNes.FileBounds
