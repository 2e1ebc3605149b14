import MetalNes.NesCart
import MetalNes.Runs

namespace MetalNes.CartLifetime

open Blocks Runs NesCart

def CartBlock (h : Heap Kind) (b : Nat) : Prop :=
  h.blocks[b]? = some .cart ∨ h.blocks[b]? = some .prgMem ∨ h.blocks[b]? = some .chrMem

/-- The installed cartridge, if any, has not been freed, and no block of any
cartridge has been freed twice. -/
structure NoDeadCart (s : Loader) : Prop where
  live : ∀ cart ∈ s.nesLoadedCart, ∀ b ∈ cart.blocks, s.heap.Live b
  once : ∀ b, CartBlock s.heap b → s.heap.FreedOnce b

/-- A call that returns, or one in which free takes bytes of the file for a tag: behind that
there is nothing to say about the memory. -/
inductive LoadStep : Option Loader → LoadCall → Option Loader → Prop
  | returns {s s' : Loader} {call : LoadCall} {code : Int} (h : nesLoadCart call s = .ok (code, s')) :
      LoadStep (some s) call (some s')
  | corrupts {s : Loader} {call : LoadCall} (h : nesLoadCart call s = .error .invalidFree) :
      LoadStep (some s) call none

def Intact (s : Option Loader) : Prop := ∃ t ∈ s, NoDeadCart t

/-- The file is there, has the magic bytes and announces mapper 0, and no magic number of
free stands in front of its CHR data. -/
def Valid (call : LoadCall) : Prop :=
  ∃ file ∈ call.fopen, file.statres = 0 ∧ magic <+: file.contents ∧
    mapperidOf (file.contents.getD 6 0) (file.contents.getD 7 0) = 0 ∧ ¬ Marked call file.contents

/-- The file is missing, cannot be examined, or has the wrong magic bytes. -/
def Refused (call : LoadCall) : Prop :=
  ∀ file ∈ call.fopen, file.statres ≠ 0 ∨ ¬ magic <+: file.contents

def ValidOrNothingToLose (s : Option Loader) (call : LoadCall) : Prop :=
  Valid call ∨ (∀ t ∈ s, t.nesLoadedCart = none) ∧ Refused call

structure Inv (s : Loader) : Prop where
  sound : s.heap.Sound
  live : ∀ cart ∈ s.nesLoadedCart, ∀ b ∈ cart.blocks, s.heap.Live b
  nodup : ∀ cart ∈ s.nesLoadedCart, cart.blocks.Nodup

theorem Inv.noDeadCart {s : Loader} (hs : Inv s) : NoDeadCart s :=
  ⟨hs.live, fun b _ => hs.sound.once b⟩

variable {s s' t : Loader} {call : LoadCall} {cart : LoadedCart}

theorem mem_blocks (cart : LoadedCart) : cart.block ∈ cart.blocks :=
  List.mem_append_right _ (List.mem_singleton_self _)

theorem freeLoaded_heap (h : s.nesLoadedCart = some cart) :
    (freeLoaded s).heap = s.heap.freeAll cart.blocks := by
  rw [freeLoaded, h, freeCart_heap]

theorem Inv.freeLoaded_sound (hs : Inv s) : (freeLoaded s).heap.Sound := by
  cases h : s.nesLoadedCart with
  | none =>
      rw [freeLoaded, h]
      exact hs.sound
  | some cart =>
      rw [freeLoaded_heap h]
      exact hs.sound.freeAll (hs.live cart h) (hs.nodup cart h)

/-- The old cartridge stays freed whatever is allocated after it. -/
theorem not_noDeadCart_of_installed (h : s.nesLoadedCart = some cart)
    (hgrow : (freeLoaded s).heap.Grows t.heap) (hsame : t.nesLoadedCart = s.nesLoadedCart) :
    ¬ NoDeadCart t := by
  intro hgood
  have hfreed : base cart.block ∈ (freeLoaded s).heap.freed := by
    rw [freeLoaded_heap h]
    exact Heap.mem_freed_freeAll (mem_blocks cart)
  exact (hgood.live cart (hsame.trans h) cart.block (mem_blocks cart)).2 (hgrow.freed _ hfreed)

section Install

variable {cartbuffer : Ptr} {code : Int} (hbuilt : Built (freeLoaded s) t cart)
  (hinstall : installed cartbuffer cart t = (code, s'))

include hinstall

/-- A cartridge without a mapper is freed and stays installed. -/
theorem not_noDeadCart_of_install (hmapper : cart.mapper = none) : ¬ NoDeadCart s' := by
  have hdead := (if_pos hmapper).symm.trans hinstall
  cases hdead
  intro hgood
  refine (hgood.live cart rfl cart.block (mem_blocks cart)).2 ?_
  rw [freeCart_heap]
  exact Heap.mem_freed_freeAll (mem_blocks cart)

include hbuilt

theorem Inv.install (hs : (freeLoaded s).heap.Sound) (hmapper : cart.mapper ≠ none)
    (hbuffer : cartbuffer.block < t.heap.blocks.length) (hadvanced : 0 < cartbuffer.offset) :
    Inv s' := by
  have hok := (if_neg hmapper).symm.trans hinstall
  cases hok
  have hne : ∀ b, cartbuffer ≠ base b := by
    rintro b rfl
    exact lt_irrefl _ hadvanced
  refine ⟨?_, ?_, ?_⟩
  · exact (hbuilt.grows.sound hs).free hbuffer fun b hb => absurd hb (hne b)
  · rintro c ⟨⟩ b hb
    exact (hbuilt.live hs b hb).free fun he => hne b (Option.some.inj he)
  · rintro c ⟨⟩
    exact hbuilt.nodup

end Install

theorem Inv.grows (hs : (freeLoaded s).heap.Sound) (hnone : s.nesLoadedCart = none)
    (hgrow : (freeLoaded s).heap.Grows t.heap) (hsame : t.nesLoadedCart = s.nesLoadedCart) : Inv t := by
  have hempty : ∀ cart, cart ∉ t.nesLoadedCart := by
    rw [hsame, hnone]
    exact fun cart => Option.not_mem_none cart
  exact ⟨hgrow.sound hs, fun cart hc => absurd hc (hempty cart), fun cart hc => absurd hc (hempty cart)⟩

theorem refused_iff {file : CartFile} (h : call.fopen = some file) :
    Refused call ↔ file.statres ≠ 0 ∨ ¬ magic <+: file.contents := by
  rw [Refused, h]
  simp

theorem valid_iff {file : CartFile} (h : call.fopen = some file) :
    Valid call ↔ file.statres = 0 ∧ magic <+: file.contents ∧
      mapperidOf (file.contents.getD 6 0) (file.contents.getD 7 0) = 0 ∧ ¬ Marked call file.contents := by
  rw [Valid, h]
  simp

theorem not_valid_of_refused (h : Refused call) : ¬ Valid call := by
  rintro ⟨file, hfile, hstat, hmagic, -⟩
  rcases h file hfile with hno | hno
  · exact hno hstat
  · exact hno hmagic

/-- A call that is refused only allocates, after freeing the old cartridge. -/
theorem exit_cases {code : Int} (h : Exit call s code s') :
    (Refused call ∧ (freeLoaded s).heap.Grows s'.heap ∧ s'.nesLoadedCart = s.nesLoadedCart) ∨
    ∃ cart cartbuffer t, (Valid call ↔ cart.mapper ≠ none) ∧ ¬ Refused call ∧
      Built (freeLoaded s) t cart ∧ installed cartbuffer cart t = (code, s') ∧
      cartbuffer.block < t.heap.blocks.length ∧ 0 < cartbuffer.offset := by
  cases h with
  | notFound hopen =>
      refine .inl ⟨?_, .refl _, freeLoaded_nesLoadedCart s⟩
      rw [Refused, hopen]
      exact fun file hfile => absurd hfile (Option.not_mem_none file)
  | noStat file hopen hstat =>
      exact .inl ⟨(refused_iff hopen).mpr (.inl hstat), .refl _, freeLoaded_nesLoadedCart s⟩
  | badMagic file hopen hstat hmagic _ _ t hgrow hsame _ =>
      exact .inl ⟨(refused_iff hopen).mpr (.inr hmagic), hgrow, hsame⟩
  | read file hopen hstat hmagic t cart cartbuffer hbuffer hplace hbuilt hcart _ htag _ _ hinstall =>
      have hadvanced : 0 < cartbuffer.offset := by
        have hheader := header_le_chrStart file.contents
        omega
      have hunmarked : ¬ Marked call file.contents := by
        obtain ⟨word, hword, hne⟩ := htag
        rw [Marked, ← hplace, hword]
        exact fun he => hne (Except.ok.inj he)
      refine .inr ⟨cart, cartbuffer, t, ?_, ?_, hbuilt, hinstall, hbuffer, hadvanced⟩
      · rw [valid_iff hopen, ← hcart.mapperId, ne_eq, hcart.mapper, not_not]
        exact ⟨fun h => h.2.2.1, fun h => ⟨hstat, hmagic, h, hunmarked⟩⟩
      · rw [refused_iff hopen]
        exact not_or.mpr ⟨not_not_intro hstat, not_not_intro hmagic⟩

/-- The heap is left in order by a good step, and free is not given a tag of the file. -/
theorem Inv.step {o : Option Loader} (hs : Inv s) (h : LoadStep (some s) call o)
    (hok : ValidOrNothingToLose (some s) call) : ∃ s' ∈ o, Inv s' := by
  cases h with
  | @returns _ s' _ code h =>
      refine ⟨s', rfl, ?_⟩
      rcases exit_cases (nesLoadCart_exit h) with
        ⟨hrefused, hgrow, hsame⟩ | ⟨cart, cartbuffer, t, hvalid, hread, hbuilt, hinstall, hbuffer, hadv⟩
      · rcases hok with hval | ⟨hnone, -⟩
        · exact absurd hval (not_valid_of_refused hrefused)
        · exact .grows hs.freeLoaded_sound (hnone s rfl) hgrow hsame
      · rcases hok with hval | ⟨-, hrefused⟩
        · exact .install hbuilt hinstall hs.freeLoaded_sound (hvalid.mp hval) hbuffer hadv
        · exact absurd hrefused hread
  | corrupts h =>
      obtain ⟨file, hopen, hstat, hmagic, hmarked⟩ := nesLoadCart_invalidFree h
      rcases hok with hval | ⟨-, hrefused⟩
      · exact absurd hmarked ((valid_iff hopen).mp hval).2.2.2
      · exact absurd ((refused_iff hopen).mp hrefused) (not_or.mpr ⟨not_not_intro hstat, not_not_intro hmagic⟩)

theorem not_intact_of_step {o : Option Loader} (h : LoadStep (some s) call o)
    (hbad : ¬ ValidOrNothingToLose (some s) call) : ¬ Intact o := by
  rintro ⟨s', hs', hgood⟩
  cases h with
  | corrupts h => cases hs'
  | @returns _ t' _ code h =>
      obtain rfl : t' = s' := Option.some.inj hs'
      rw [ValidOrNothingToLose, not_or, not_and_or] at hbad
      rcases exit_cases (nesLoadCart_exit h) with
        ⟨hrefused, hgrow, hsame⟩ | ⟨cart, cartbuffer, t, hvalid, -, -, hinstall, -⟩
      · have hcart : s.nesLoadedCart ≠ none := fun hnone =>
          hbad.2.resolve_right (not_not_intro hrefused) fun t ht => Option.some.inj ht ▸ hnone
        obtain ⟨cart, hcart⟩ := Option.ne_none_iff_exists'.mp hcart
        exact not_noDeadCart_of_installed hcart hgrow hsame hgood
      · exact not_noDeadCart_of_install hinstall (not_not.mp fun hm => hbad.1 (hvalid.mpr hm)) hgood

def start : Loader := ⟨⟨[], []⟩, none, []⟩

theorem start_inv : Inv start :=
  ⟨⟨fun _ hp => absurd hp List.not_mem_nil, fun _ => Nat.zero_le _⟩,
    fun cart hc => absurd hc (Option.not_mem_none cart),
    fun cart hc => absurd hc (Option.not_mem_none cart)⟩

/-- For every sequence of calls: exactly the sequences in which each call loads a valid file,
or is refused before anything was installed. -/
theorem run_noDeadCart_iff {steps : List (LoadCall × Option Loader)} (h : Trace LoadStep (some start) steps) :
    (∀ x ∈ steps, Intact x.2) ↔ Meets ValidOrNothingToLose (some start) steps := by
  have keep : ∀ (o : Option Loader) call o', (∃ s ∈ o, Inv s) → LoadStep o call o' → ValidOrNothingToLose o call →
      ∃ s ∈ o', Inv s := by
    rintro o call o' ⟨s, rfl, hs⟩ hstep hok
    exact hs.step hstep hok
  refine h.good_iff keep ?_ (fun o ⟨s, hs, hinv⟩ => ⟨s, hs, hinv.noDeadCart⟩) ⟨start, rfl, start_inv⟩
  rintro o call o' ⟨s, rfl, hs⟩ hstep hbad
  exact not_intact_of_step hstep hbad

def headerCall (mapper1 : U8) : LoadCall where
  fopen := some ⟨[0x4E, 0x45, 0x53, 0x1A, 0, 0, mapper1, 0, 0, 0, 0, 0, 0, 0, 0, 0], 0⟩
  addressZero _ := 0
  refused _ := false
  splitLeft := 0

def missingCall : LoadCall := ⟨none, fun _ => 0, fun _ => false, 0⟩

def after (call : LoadCall) (s : Loader) : Loader :=
  match nesLoadCart call s with
  | .ok (_, s') => s'
  | .error _ => s

theorem after_eq {s : Loader} {call : LoadCall} {code : Int}
    (h : (nesLoadCart call s).toOption.map Prod.fst = some code) : nesLoadCart call s = .ok (code, after call s) := by
  cases hload : nesLoadCart call s with
  | error e =>
      rw [hload] at h
      cases h
  | ok r =>
      rw [hload] at h
      rw [after, hload, ← Option.some.inj h]

theorem step_after {s : Loader} {call : LoadCall} (code : Int)
    (h : (nesLoadCart call s).toOption.map Prod.fst = some code) : LoadStep (some s) call (some (after call s)) :=
  .returns (after_eq h)

theorem run_reload_noDeadCart :
    let s₁ := after missingCall start
    let s₂ := after (headerCall 0) s₁
    let s₃ := after (headerCall 0) s₂
    ∀ x ∈ [(missingCall, some s₁), (headerCall 0, some s₂), (headerCall 0, some s₃)], Intact x.2 := by
  have hvalid : Valid (headerCall 0) := by
    refine ⟨_, rfl, rfl, by decide, by decide, ?_⟩
    rw [Marked, tagMagic, if_pos (by decide)]
    exact fun h => absurd (Except.ok.inj h) (by decide)
  refine (run_noDeadCart_iff (.cons (step_after ROM_NOT_FOUND rfl) (.cons (step_after ROM_OK (by decide +kernel))
    (.cons (step_after ROM_OK (by decide +kernel)) (.nil _))))).mpr ⟨.inr ⟨?_, ?_⟩, .inl hvalid, .inl hvalid, trivial⟩
  · rintro t ⟨⟩
    rfl
  · exact fun file hfile => absurd hfile (Option.not_mem_none file)

/-- An unsupported mapper leaves its freed cartridge installed, and the next call
frees it again. -/
theorem unsupported_then_missing :
    let s₁ := after (headerCall 0x10) start
    let s₂ := after missingCall s₁
    Trace LoadStep (some start) [(headerCall 0x10, some s₁), (missingCall, some s₂)] ∧ ¬ NoDeadCart s₁ ∧
      ∃ b, CartBlock s₂.heap b ∧ ¬ s₂.heap.FreedOnce b := by
  refine ⟨.cons (step_after ROM_MISSING_MAPPER (by decide +kernel))
    (.cons (step_after ROM_NOT_FOUND (by decide +kernel)) (.nil _)), fun h => ?_, 1, ?_, ?_⟩
  · have hlive := (h.live _ rfl 1 (by decide)).2
    revert hlive
    decide
  · exact .inl rfl
  · rw [Heap.FreedOnce]
    decide

end MetalNes.CartLifetime
