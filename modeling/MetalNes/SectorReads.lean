import MetalNes.BlockReads
import MetalNes.BootSector
import MetalNes.ClusterChains

namespace MetalNes.SectorReads

open Loop Outcomes Pl181 BlockReads BootSector ClusterChains

/-- What the controller shows while blocks are read: the status register at every poll,
and the words behind a read command, by the parameter it was sent with. -/
structure Medium where
  status : Nat → U32
  word : U32 → Nat → U32

def Medium.card (m : Medium) (param : U32) : Card := ⟨m.status, fun _ => 0, m.word param, false⟩

/-- A card that is not one of high capacity counts bytes. -/
def blockParam (sd : SdCard) (addr : U32) : U32 := if sd.ishc then addr else addr * 512

def readBlock (m : Medium) (fuel : Nat) (addr : U32) : DriverM U32 := do
  match (← get).mmciSdCard with
  | none => throw .nullPointer
  | some sd => mmciReadBlock (m.card (blockParam sd addr)) fuel addr

/-- The words of a block go to its place in the buffer, however many there are. -/
def place (buffer : Nat → U32) (start : Nat) (words : List U32) : Nat → U32 := fun j =>
  if start ≤ j then words.getD (j - start) (buffer j) else buffer j

/-- The loop of mmci_read_blocks: the number of the block, and of those that are left. -/
def readFrom (m : Medium) (fuel : Nat) (addr : U32) :
    Nat → Nat → U32 → (Nat → U32) → DriverM (U32 × (Nat → U32))
  | _, 0, bytesread, buffer => pure (bytesread, buffer)
  | i, n + 1, bytesread, buffer => do
      let count ← readBlock m fuel (addr + BitVec.ofNat 32 i)
      let words := (← get).stored
      readFrom m fuel addr (i + 1) n (bytesread + count) (place buffer (128 * i) words)

def mmciReadBlocks (m : Medium) (fuel : Nat) (buffer : Nat → U32) (addr numblocks : U32) :
    DriverM (U32 × (Nat → U32)) := readFrom m fuel addr 0 numblocks.toNat 0 buffer

section Delivery

/-- A read command from a poll on is answered, and then a word is there at each of 128
polls and none at the next. -/
structure Delivered (m : Medium) (p q : Nat) : Prop where
  ends : CommandEnds (m.card 0) readCmd p q
  words : ∀ i < 128, m.status (q + 1 + i) &&& bit 21 ≠ 0
  empty : m.status (q + 1 + 128) &&& bit 21 = 0

/-- So many blocks are delivered one after the other. -/
def Paced (m : Medium) : Nat → Nat → Prop
  | 0, _ => True
  | n + 1, p => ∃ q, Delivered m p q ∧ Paced m n (q + 130)

/-- The sectors of the card, where its addresses reach. -/
def Stores (m : Medium) (sd : SdCard) (sector : Nat → Vector U8 512) : Prop :=
  ∀ addr : U32, sd.ishc = true ∨ addr.toNat < 2 ^ 23 →
    (List.range 128).flatMap (fun k => longBytes (m.word (blockParam sd addr) k)) = (sector addr.toNat).toList

end Delivery

section Block

variable {m : Medium} {s : Driver} {sd : SdCard} {q : Nat}

def blockWords (m : Medium) (sd : SdCard) (addr : U32) : List U32 :=
  (List.range 128).map (m.word (blockParam sd addr))

theorem readBlock_run (hsd : s.mmciSdCard = some sd) (fuel : Nat) (addr : U32) :
    (readBlock m fuel addr).run s = (mmciReadBlock (m.card (blockParam sd addr)) fuel addr).run s := by
  cases s with
  | mk polls sent mmciSdCard stored =>
      cases hsd
      rfl

theorem readBlock_settles (hsd : s.mmciSdCard = some sd) (h : Delivered m s.polls q) (addr : U32) :
    Settles (fun fuel => readBlock m fuel addr) s 512
      ⟨q + 130, s.sent ++ [(readCmd, blockParam sd addr)], some sd, blockWords m sd addr⟩ := by
  have hends : CommandEnds (m.card (blockParam sd addr)) readCmd s.polls q := h.ends
  obtain ⟨n, hn⟩ := mmciSendCmd_settles (s := { s with stored := [] }) hends (blockParam sd addr)
  refine ⟨n + 129, fun fuel hfuel => ?_⟩
  obtain ⟨k, rfl⟩ := Nat.exists_eq_add_of_le hfuel
  have hsent := mmciReadBlock_sent hsd (hn (n + 129 + k) (by omega))
  have hfuel : n + 129 + k = n + k + 1 + 128 := by omega
  have hwords : ∀ i < 128, Available (m.card (blockParam sd addr)) (q + 1 + i) := h.words
  have hempty : ¬ Available (m.card (blockParam sd addr)) (q + 1 + 128) := not_not_intro h.empty
  rw [readBlock_run hsd, hsent, hfuel]
  refine (readFifo_returns hwords hempty (n + k) 0).trans ?_
  have hcount : (0 : U32) + BitVec.ofNat 32 (4 * 128) = 512 := by decide
  rw [hcount]
  simp [afterWords, Driver.after, blockWords, Medium.card, hsd]

end Block

section Blocks

variable {m : Medium} {sd : SdCard} {addr : U32}

/-- The buffer with the blocks from the number i on. -/
def transferred (m : Medium) (sd : SdCard) (addr : U32) (i n : Nat) (buffer : Nat → U32) : Nat → U32 := fun j =>
  if 128 * i ≤ j ∧ j < 128 * (i + n) then
    m.word (blockParam sd (addr + BitVec.ofNat 32 (j / 128))) (j % 128)
  else buffer j

theorem transferred_zero (i : Nat) (buffer : Nat → U32) : transferred m sd addr i 0 buffer = buffer := by
  funext j
  exact if_neg fun h => Nat.lt_irrefl _ (h.1.trans_lt h.2)

theorem transferred_succ (i n : Nat) (buffer : Nat → U32) :
    transferred m sd addr (i + 1) n (place buffer (128 * i) (blockWords m sd (addr + BitVec.ofNat 32 i))) =
      transferred m sd addr i (n + 1) buffer := by
  funext j
  have hlen : (blockWords m sd (addr + BitVec.ofNat 32 i)).length = 128 := by
    rw [blockWords, List.length_map, List.length_range]
  by_cases hbefore : j < 128 * i
  · rw [transferred, transferred, if_neg (by omega), if_neg (by omega), place, if_neg (by omega)]
  by_cases hin : j < 128 * (i + 1)
  · have hdiv : j / 128 = i := by omega
    have hmod : j % 128 = j - 128 * i := by omega
    have hword : (blockWords m sd (addr + BitVec.ofNat 32 i)).getD (j - 128 * i) (buffer j) =
        m.word (blockParam sd (addr + BitVec.ofNat 32 i)) (j - 128 * i) := by
      rw [List.getD_eq_getElem?_getD, blockWords, List.getElem?_map, List.getElem?_range (by omega)]
      rfl
    rw [transferred, transferred, if_neg (by omega), if_pos (by omega), place, if_pos (by omega), hword, hdiv, hmod]
  · have hbehind : (blockWords m sd (addr + BitVec.ofNat 32 i)).getD (j - 128 * i) (buffer j) = buffer j := by
      rw [List.getD_eq_getElem?_getD, List.getElem?_eq_none (by omega)]
      rfl
    have hsame : (128 * (i + 1) ≤ j ∧ j < 128 * (i + 1 + n)) = (128 * i ≤ j ∧ j < 128 * (i + (n + 1))) := by
      rw [eq_iff_iff]
      omega
    rw [transferred, transferred, place, if_pos (by omega : 128 * i ≤ j), hbehind]
    simp only [hsame]

/-- What is sent for the blocks, and how the loop ends: induction on the blocks left. -/
theorem readFrom_settles (addr : U32) {n i : Nat} {s : Driver} (hsd : s.mmciSdCard = some sd)
    (hpaced : Paced m n s.polls) (bytesread : U32) (buffer : Nat → U32) :
    ∃ t, Settles (fun fuel => readFrom m fuel addr i n bytesread buffer) s
        (bytesread + BitVec.ofNat 32 (512 * n), transferred m sd addr i n buffer) t ∧
      t.sent = s.sent ++ (List.range n).map fun k => (readCmd, blockParam sd (addr + BitVec.ofNat 32 (i + k))) := by
  induction n generalizing i s bytesread buffer with
  | zero =>
      refine ⟨s, .of_eq fun _ => ?_, (List.append_nil _).symm⟩
      rw [transferred_zero, Nat.mul_zero, BitVec.add_zero]
      rfl
  | succ n ih =>
      obtain ⟨q, hdelivered, hrest⟩ := hpaced
      have hblock := readBlock_settles hsd hdelivered (addr + BitVec.ofNat 32 i)
      obtain ⟨t, ht, hsent⟩ := ih (i := i + 1)
        (s := ⟨q + 130, s.sent ++ [(readCmd, blockParam sd (addr + BitVec.ofNat 32 i))], some sd,
          blockWords m sd (addr + BitVec.ofNat 32 i)⟩) rfl hrest (bytesread + 512)
        (place buffer (128 * i) (blockWords m sd (addr + BitVec.ofNat 32 i)))
      have hcount : bytesread + 512 + BitVec.ofNat 32 (512 * n) = bytesread + BitVec.ofNat 32 (512 * (n + 1)) := by
        rw [Nat.mul_succ, BitVec.ofNat_add, BitVec.add_assoc, BitVec.add_comm 512]
        rfl
      rw [transferred_succ, hcount] at ht
      refine ⟨t, .bind hblock (.bind (.of_eq fun _ => rfl) ht), ?_⟩
      have hshift : (fun k => (readCmd, blockParam sd (addr + BitVec.ofNat 32 (i + (k + 1))))) =
          fun k => (readCmd, blockParam sd (addr + BitVec.ofNat 32 (i + 1 + k))) := by
        funext k
        rw [Nat.add_assoc, Nat.add_comm 1]
      rw [hsent, List.range_succ_eq_map, List.map_cons, List.map_map, Nat.add_zero, List.append_assoc]
      exact congrArg (fun f => s.sent ++ _ :: (List.range n).map f) hshift.symm

end Blocks

section Sectors

variable {m : Medium} {sd : SdCard} {sector : Nat → Vector U8 512} {addr : U32}

theorem transferred_sectors (hstores : Stores m sd sector) (buffer : Nat → U32) {n : Nat}
    (hrange : addr.toNat + n ≤ 2 ^ 32) (hreach : sd.ishc = true ∨ addr.toNat + n ≤ 2 ^ 23) :
    (List.range (128 * n)).flatMap (fun j => longBytes (transferred m sd addr 0 n buffer j)) =
      sectorBytes sector addr.toNat n := by
  have hword : ∀ i < n, ∀ k < 128, transferred m sd addr 0 n buffer (128 * i + k) =
      m.word (blockParam sd (addr + BitVec.ofNat 32 i)) k := by
    intro i hi k hk
    rw [transferred, if_pos (by omega), Nat.mul_add_div (by decide), Nat.mul_add_mod, Nat.div_eq_of_lt hk,
      Nat.mod_eq_of_lt hk, Nat.add_zero]
  have hblock : ∀ i < n, (List.range 128).flatMap (fun k =>
      longBytes (transferred m sd addr 0 n buffer (128 * i + k))) = (sector (addr.toNat + i)).toList := by
    intro i hi
    have haddr : (addr + BitVec.ofNat 32 i).toNat = addr.toNat + i := by
      rw [BitVec.toNat_add, BitVec.toNat_ofNat, Nat.mod_eq_of_lt (by omega : i < 2 ^ 32), Nat.mod_eq_of_lt (by omega)]
    have hstored := hstores (addr + BitVec.ofNat 32 i) (hreach.imp_right fun h => by omega)
    rw [haddr] at hstored
    rw [← hstored]
    exact List.flatMap_congr fun k hk => congrArg longBytes (hword i hi k (List.mem_range.mp hk))
  have hfirst : ∀ c ≤ n, (List.range (128 * c)).flatMap (fun j =>
      longBytes (transferred m sd addr 0 n buffer j)) = sectorBytes sector addr.toNat c := by
    intro c hc
    induction c with
    | zero => rfl
    | succ c ih =>
        rw [Nat.mul_succ, List.range_add, List.flatMap_append, List.flatMap_map, ih (Nat.le_of_succ_le hc),
          hblock c hc, sectorBytes, sectorBytes, List.range_succ, List.flatMap_append, List.flatMap_singleton]
  exact hfirst n le_rfl

/-- For every card whose words are there in time, and every run of its sectors: the bytes
of the sectors are stored one after the other, nothing behind them, and counted; and the
commands are those of the blocks in order. -/
theorem mmciReadBlocks_sectors {s : Driver} (hsd : s.mmciSdCard = some sd) (hstores : Stores m sd sector)
    (addr numblocks : U32) (hrange : addr.toNat + numblocks.toNat ≤ 2 ^ 32)
    (hreach : sd.ishc = true ∨ addr.toNat + numblocks.toNat ≤ 2 ^ 23) (hpaced : Paced m numblocks.toNat s.polls)
    (buffer : Nat → U32) : ∃ after t,
      Settles (fun fuel => mmciReadBlocks m fuel buffer addr numblocks) s (numblocks * 512, after) t ∧
      (List.range (128 * numblocks.toNat)).flatMap (fun j => longBytes (after j)) =
        sectorBytes sector addr.toNat numblocks.toNat ∧
      (∀ j ≥ 128 * numblocks.toNat, after j = buffer j) ∧
      t.sent = s.sent ++ (List.range numblocks.toNat).map fun i =>
        (readCmd, blockParam sd (addr + BitVec.ofNat 32 i)) := by
  obtain ⟨t, hsettles, hsent⟩ := readFrom_settles addr hsd hpaced (i := 0) 0 buffer
  have hcount : (0 : U32) + BitVec.ofNat 32 (512 * numblocks.toNat) = numblocks * 512 := by
    rw [zero_add, BitVec.ofNat_mul, BitVec.ofNat_toNat, BitVec.setWidth_eq, BitVec.mul_comm]
    rfl
  rw [hcount] at hsettles
  refine ⟨_, t, hsettles, transferred_sectors hstores buffer hrange hreach, fun j hj => ?_, ?_⟩
  · exact if_neg (by omega)
  · simpa only [Nat.zero_add] using hsent

/-- A card that answers at once, and shows its words without a pause. -/
def prompt : Medium where
  status n := if n % 134 < 5 then bit 6 else if n % 134 < 133 then bit 21 else 0
  word param _ := longOf (param.setWidth 8) (param.setWidth 8) (param.setWidth 8) (param.setWidth 8)

def numberedSector (lba : Nat) : Vector U8 512 := Vector.replicate 512 (BitVec.ofNat 8 lba)

theorem prompt_status (b : Nat) {r : Nat} (hr : r < 134) :
    prompt.status (134 * b + r) = if r < 5 then bit 6 else if r < 133 then bit 21 else 0 := by
  have hmod : (134 * b + r) % 134 = r := by
    rw [Nat.mul_add_mod, Nat.mod_eq_of_lt hr]
  simp only [prompt, hmod]

theorem prompt_delivered (b : Nat) : Delivered prompt (134 * b) (134 * b + 4) := by
  have hanswer : ∀ r < 5, prompt.status (134 * b + r) = bit 6 := fun r hr =>
    (prompt_status b (hr.trans (by decide))).trans (if_pos hr)
  have hactive : activeBody prompt.status (134 * b + 1) = .done (134 * b + 2) := by
    rw [activeBody, hanswer 1 (by decide)]
    rfl
  have hresponse : answerBody prompt.status readCmd (134 * b + 2) = .done (134 * b + 4) := by
    rw [answerBody, if_pos (by decide), responseBody, hanswer 2 (by decide), Nat.add_assoc,
      hanswer (2 + 1) (by decide)]
    rfl
  refine ⟨⟨134 * b + 2, .of_done hactive, .of_done hresponse⟩, fun i hi => ?_, ?_⟩
  · rw [Nat.add_assoc, Nat.add_assoc, prompt_status b (by omega), if_neg (by omega), if_pos (by omega)]
    decide
  · rw [Nat.add_assoc, Nat.add_assoc, prompt_status b (by decide)]
    decide

theorem prompt_paced (n b : Nat) : Paced prompt n (134 * b) := by
  induction n generalizing b with
  | zero => trivial
  | succ n ih => exact ⟨134 * b + 4, prompt_delivered b, ih (b + 1)⟩

theorem prompt_stores : Stores prompt ⟨0, true⟩ numberedSector := by
  intro addr _
  have hbyte : BitVec.ofNat 8 addr.toNat = addr.setWidth 8 := BitVec.eq_of_toNat_eq (by simp)
  have hword : ∀ b : U8, longBytes (longOf b b b b) = List.replicate 4 b := by decide +kernel
  have hsector : (numberedSector addr.toNat).toList = List.replicate 512 (addr.setWidth 8) := by
    rw [numberedSector, hbyte, Vector.toList_replicate]
  have hblock : ∀ n, (List.range n).flatMap (fun _ => List.replicate 4 (addr.setWidth 8)) =
      List.replicate (4 * n) (addr.setWidth 8) := by
    intro n
    induction n with
    | zero => rfl
    | succ n ih =>
        rw [List.range_succ, List.flatMap_append, ih, List.flatMap_singleton, List.replicate_append_replicate,
          Nat.mul_succ]
  rw [hsector, ← hblock 128]
  exact List.flatMap_congr fun _ _ => hword (addr.setWidth 8)

/-- Three sectors, the first one of which has the number 7. -/
theorem prompt_reads : ∃ after t,
    Settles (fun fuel => mmciReadBlocks prompt fuel (fun _ => 0) 7 3) ⟨0, [], some ⟨0, true⟩, []⟩ (1536, after) t ∧
      (List.range 384).flatMap (fun j => longBytes (after j)) = sectorBytes numberedSector 7 3 ∧
      t.sent = [(readCmd, 7), (readCmd, 8), (readCmd, 9)] := by
  obtain ⟨after, t, hsettles, hbytes, -, hsent⟩ := mmciReadBlocks_sectors
    (s := ⟨0, [], some ⟨0, true⟩, []⟩) rfl prompt_stores 7 3 (by decide) (Or.inl rfl) (prompt_paced 3 0) fun _ => 0
  exact ⟨after, t, hsettles, hbytes, hsent⟩

end Sectors

end MetalNes.SectorReads
