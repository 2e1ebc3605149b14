import MetalNes.Words

namespace MetalNes.Blocks

/-- What a C program does wrong with a pointer. -/
inductive Fault
  | outOfBounds
  | nullPointer
  | invalidFree
  deriving DecidableEq, Repr

structure Ptr where
  block : Nat
  offset : Nat
  deriving DecidableEq, Repr

/-- The blocks handed out so far, each with its kind, and the pointers passed to
free, the last one first. A block's number is never used again. -/
structure Heap (κ : Type) where
  blocks : List κ
  freed : List Ptr
  deriving DecidableEq, Repr

variable {κ : Type}

def Heap.malloc (h : Heap κ) (refused : Bool) (kind : κ) : Option Nat × Heap κ :=
  if refused then (none, h) else (some h.blocks.length, { h with blocks := h.blocks ++ [kind] })

/-- Freeing NULL does nothing. -/
def Heap.free (h : Heap κ) : Option Ptr → Heap κ
  | none => h
  | some p => { h with freed := p :: h.freed }

/-- free of a pointer that malloc did not return. It looks for the mark of a block in front of
the pointer: without one it returns, and with one it takes what is there for a block. -/
def Heap.freeInside (h : Heap κ) (p : Ptr) (marked : Bool) : Except Fault (Heap κ) :=
  if marked then .error .invalidFree else .ok (h.free (some p))

def base (block : Nat) : Ptr := ⟨block, 0⟩

def Heap.Live (h : Heap κ) (b : Nat) : Prop := b < h.blocks.length ∧ base b ∉ h.freed

def Heap.FreedOnce (h : Heap κ) (b : Nat) : Prop := h.freed.count (base b) ≤ 1

/-- Only blocks that were handed out have been freed, and each of them once. -/
structure Heap.Sound (h : Heap κ) : Prop where
  known : ∀ p ∈ h.freed, p.block < h.blocks.length
  once : ∀ b, h.FreedOnce b

variable {h : Heap κ}

theorem Heap.malloc_granted (h : Heap κ) (kind : κ) :
    h.malloc false kind = (some h.blocks.length, { h with blocks := h.blocks ++ [kind] }) := rfl

@[simp] theorem Heap.malloc_freed (h : Heap κ) (refused : Bool) (kind : κ) :
    (h.malloc refused kind).2.freed = h.freed := by
  cases refused <;> rfl

theorem Heap.malloc_length (h : Heap κ) (refused : Bool) (kind : κ) :
    h.blocks.length ≤ (h.malloc refused kind).2.blocks.length := by
  cases refused with
  | true => exact le_rfl
  | false =>
      rw [Heap.malloc_granted, List.length_append]
      exact Nat.le_add_right _ _

@[simp] theorem Heap.free_blocks (h : Heap κ) (p : Option Ptr) : (h.free p).blocks = h.blocks := by
  cases p <;> rfl

theorem Heap.Live.malloc {b : Nat} (hb : h.Live b) (refused : Bool) (kind : κ) :
    (h.malloc refused kind).2.Live b := by
  refine ⟨hb.1.trans_le (h.malloc_length refused kind), ?_⟩
  rw [Heap.malloc_freed]
  exact hb.2

theorem Heap.Live.free {b : Nat} (hb : h.Live b) {p : Option Ptr} (hp : p ≠ some (base b)) :
    (h.free p).Live b := by
  refine ⟨by rw [Heap.free_blocks]; exact hb.1, ?_⟩
  cases p with
  | none => exact hb.2
  | some p =>
      rintro (_ | ⟨_, hmem⟩)
      · exact hp rfl
      · exact hb.2 hmem

theorem Heap.Sound.malloc (hs : h.Sound) (refused : Bool) (kind : κ) :
    (h.malloc refused kind).2.Sound := by
  constructor
  · intro p hp
    rw [Heap.malloc_freed] at hp
    exact (hs.known p hp).trans_le (h.malloc_length refused kind)
  · intro b
    rw [Heap.FreedOnce, Heap.malloc_freed]
    exact hs.once b

/-- A new block is live: nothing with its number was freed before. -/
theorem Heap.Sound.live_new (hs : h.Sound) (kind : κ) :
    (h.malloc false kind).2.Live h.blocks.length := by
  refine ⟨?_, fun hmem => ?_⟩
  · rw [Heap.malloc_granted, List.length_append]
    exact Nat.lt_succ_self _
  · exact absurd (hs.known _ hmem) (lt_irrefl _)

theorem Heap.Sound.free (hs : h.Sound) {p : Ptr} (hb : p.block < h.blocks.length)
    (hp : ∀ b, p = base b → h.Live b) : (h.free (some p)).Sound := by
  constructor
  · intro q hq
    rcases List.mem_cons.mp hq with rfl | hq
    · exact hb
    · exact hs.known q hq
  · intro b
    rw [Heap.FreedOnce, Heap.free, List.count_cons]
    by_cases he : p = base b
    · have hnot := List.count_eq_zero_of_not_mem (hp b he).2
      rw [hnot, if_pos (beq_iff_eq.mpr he)]
    · rw [if_neg (by rwa [beq_iff_eq])]
      exact hs.once b

/-- What an allocation does to the blocks that exist. -/
structure Heap.Grows (h h' : Heap κ) : Prop where
  sound : h.Sound → h'.Sound
  live : ∀ b, h.Live b → h'.Live b
  length : h.blocks.length ≤ h'.blocks.length
  freed : ∀ p ∈ h.freed, p ∈ h'.freed

theorem Heap.Grows.refl (h : Heap κ) : h.Grows h := ⟨id, fun _ => id, le_rfl, fun _ => id⟩

theorem Heap.Grows.trans {h h' h'' : Heap κ} (hg : h.Grows h') (hg' : h'.Grows h'') : h.Grows h'' :=
  ⟨fun hs => hg'.sound (hg.sound hs), fun b hb => hg'.live b (hg.live b hb),
    hg.length.trans hg'.length, fun p hp => hg'.freed p (hg.freed p hp)⟩

theorem Heap.malloc_grows (h : Heap κ) (refused : Bool) (kind : κ) :
    h.Grows (h.malloc refused kind).2 :=
  ⟨fun hs => hs.malloc refused kind, fun _ hb => hb.malloc refused kind, h.malloc_length refused kind,
    fun _ hp => by rwa [Heap.malloc_freed]⟩

theorem Heap.malloc_some {refused : Bool} {kind : κ} {b : Nat}
    (hb : (h.malloc refused kind).1 = some b) :
    refused = false ∧ b = h.blocks.length ∧ b < (h.malloc refused kind).2.blocks.length := by
  cases refused with
  | true => cases hb
  | false =>
      cases hb
      rw [Heap.malloc_granted, List.length_append]
      exact ⟨rfl, rfl, Nat.lt_succ_self _⟩

theorem Heap.Sound.malloc_live (hs : h.Sound) {refused : Bool} {kind : κ} {b : Nat}
    (hb : (h.malloc refused kind).1 = some b) : (h.malloc refused kind).2.Live b := by
  obtain ⟨rfl, rfl, -⟩ := Heap.malloc_some hb
  exact hs.live_new kind

theorem Heap.malloc_free_grows (h : Heap κ) (refused : Bool) (kind : κ) :
    h.Grows ((h.malloc refused kind).2.free ((h.malloc refused kind).1.map base)) := by
  have hg := h.malloc_grows refused kind
  cases hb : (h.malloc refused kind).1 with
  | none => exact hg
  | some b =>
      obtain ⟨-, hnew, -⟩ := Heap.malloc_some hb
      refine ⟨fun hs => ?_, fun c hc => ?_, ?_, fun p hp => List.mem_cons_of_mem _ (hg.freed p hp)⟩
      · have hlive := hs.malloc_live hb
        refine (hg.sound hs).free hlive.1 fun c hc => ?_
        rwa [← show b = c from congrArg Ptr.block hc]
      · refine (hg.live c hc).free fun he => ?_
        have hbc : b = c := congrArg Ptr.block (Option.some.inj he)
        exact absurd hc.1 (by rw [← hbc, hnew]; exact lt_irrefl _)
      · rw [Heap.free_blocks]
        exact hg.length

def Heap.freeAll (h : Heap κ) (bs : List Nat) : Heap κ := bs.foldl (fun h b => h.free (some (base b))) h

@[simp] theorem Heap.freeAll_blocks (h : Heap κ) (bs : List Nat) : (h.freeAll bs).blocks = h.blocks := by
  induction bs generalizing h with
  | nil => rfl
  | cons b bs ih => exact (ih _).trans (h.free_blocks _)

theorem Heap.Live.freeAll {b : Nat} {bs : List Nat} (hb : h.Live b) (hnot : b ∉ bs) :
    (h.freeAll bs).Live b := by
  induction bs generalizing h with
  | nil => exact hb
  | cons c bs ih =>
      rw [List.mem_cons, not_or] at hnot
      refine ih (hb.free fun he => hnot.1 ?_) hnot.2
      exact (congrArg Ptr.block (Option.some.inj he)).symm

theorem Heap.mem_freed_freeAll {b : Nat} {bs : List Nat} (hb : b ∈ bs) :
    base b ∈ (h.freeAll bs).freed := by
  have hkept : ∀ (cs : List Nat) (g : Heap κ), base b ∈ g.freed → base b ∈ (g.freeAll cs).freed := by
    intro cs
    induction cs with
    | nil => exact fun _ hmem => hmem
    | cons c cs ih => exact fun g hmem => ih _ (List.mem_cons_of_mem _ hmem)
  obtain ⟨pre, post, rfl⟩ := List.append_of_mem hb
  rw [Heap.freeAll, List.foldl_append, List.foldl_cons]
  exact hkept post _ List.mem_cons_self

theorem Heap.Sound.freeAll (hs : h.Sound) {bs : List Nat} (hlive : ∀ b ∈ bs, h.Live b)
    (hnodup : bs.Nodup) : (h.freeAll bs).Sound := by
  induction bs generalizing h with
  | nil => exact hs
  | cons b bs ih =>
      obtain ⟨hnot, hrest⟩ := List.nodup_cons.mp hnodup
      have hb := hlive b List.mem_cons_self
      refine ih (hs.free hb.1 fun c hc => ?_) (fun c hc => ?_) hrest
      · rwa [← show b = c from congrArg Ptr.block hc]
      · refine (hlive c (List.mem_cons_of_mem b hc)).free fun he => hnot ?_
        rwa [show b = c from congrArg Ptr.block (Option.some.inj he)]

/-- What is done to new blocks: the blocks that exist stay, and are freed no more often. -/
structure Heap.Leaves (h h' : Heap κ) : Prop where
  blocks : h.blocks <+: h'.blocks
  freed : ∀ b < h.blocks.length, h'.freed.count (base b) = h.freed.count (base b)

theorem Heap.Leaves.refl (h : Heap κ) : h.Leaves h := ⟨List.prefix_rfl, fun _ _ => rfl⟩

theorem Heap.Leaves.trans {h h' h'' : Heap κ} (hl : h.Leaves h') (hl' : h'.Leaves h'') : h.Leaves h'' :=
  ⟨hl.blocks.trans hl'.blocks, fun b hb =>
    (hl'.freed b (hb.trans_le hl.blocks.length_le)).trans (hl.freed b hb)⟩

theorem Heap.malloc_leaves (h : Heap κ) (refused : Bool) (kind : κ) :
    h.Leaves (h.malloc refused kind).2 := by
  refine ⟨?_, fun b _ => by rw [Heap.malloc_freed]⟩
  cases refused with
  | true => exact List.prefix_rfl
  | false => exact List.prefix_append _ _

theorem Heap.free_leaves (h : Heap κ) {p : Option Ptr} (hp : ∀ b < h.blocks.length, p ≠ some (base b)) :
    h.Leaves (h.free p) := by
  refine ⟨by rw [Heap.free_blocks], fun b hb => ?_⟩
  cases p with
  | none => rfl
  | some p => exact List.count_cons_of_ne fun he => hp b hb (congrArg some he)

theorem Heap.Leaves.free_new {h h' : Heap κ} (hl : h.Leaves h') {p : Option Nat}
    (hp : ∀ b ∈ p, h.blocks.length ≤ b) : h.Leaves (h'.free (p.map base)) := by
  refine ⟨by rw [Heap.free_blocks]; exact hl.blocks, fun b hb => ?_⟩
  rw [← hl.freed b hb]
  cases p with
  | none => rfl
  | some c =>
      refine List.count_cons_of_ne fun he => ?_
      exact absurd hb (not_lt_of_ge ((hp c rfl).trans (congrArg Ptr.block he).le))

theorem Heap.Leaves.freeAll_new {h h' : Heap κ} (hl : h.Leaves h') {bs : List Nat}
    (hbs : ∀ b ∈ bs, h.blocks.length ≤ b) : h.Leaves (h'.freeAll bs) := by
  induction bs generalizing h' with
  | nil => exact hl
  | cons b bs ih =>
      have hb : ∀ c ∈ some b, h.blocks.length ≤ c := by
        rintro c ⟨⟩
        exact hbs b List.mem_cons_self
      exact ih (hl.free_new hb) fun c hc => hbs c (List.mem_cons_of_mem b hc)

theorem ok_of_bind {ε α β : Type} {x : Except ε α} {f : α → Except ε β} {r : β}
    (h : x >>= f = .ok r) : ∃ a, x = .ok a ∧ f a = .ok r := by
  cases x with
  | error e => cases h
  | ok a => exact ⟨a, rfl, h⟩

end MetalNes.Blocks
