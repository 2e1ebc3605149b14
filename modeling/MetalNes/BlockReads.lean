import MetalNes.Pl181
import Mathlib.Order.Interval.Finset.Nat
import Mathlib.Data.Nat.Count

namespace MetalNes.BlockReads

open Loop Outcomes Pl181

def readCmd : U32 := 17 ||| EXE ||| RESP

/-- The poll with which the loop starts that reads the FIFO. -/
def DataPhase (card : Card) (s : Driver) (q : Nat) : Prop := ∃ p, CommandEnds card readCmd s.polls p ∧ q = p + 1

def Available (card : Card) (poll : Nat) : Prop := card.status poll &&& bit 21 ≠ 0

instance (card : Card) : DecidablePred (Available card) := fun _ => inferInstanceAs (Decidable (_ ≠ _))

/-- From the poll q on, a word is available 128 times, and none of the error bits shows
in the whole call. -/
structure Delivers (card : Card) (s : Driver) (q : Nat) : Prop where
  noError : ∀ n, s.polls ≤ n → card.status n &&& 0x3F = 0
  words : ∃ n, Nat.count (fun i => Available card (q + i)) n = 128 ∧ ∀ i, n ≤ i → ¬ Available card (q + i)

/-- A block that is delivered is stored and counted, and never more than a block. -/
structure ReadsBlocks (card : Card) (s : Driver) (addr : U32) : Prop where
  whole : ∀ q, DataPhase card s q → Delivers card s q → ∃ t, t.stored = (List.range 128).map card.fifo ∧
    Settles (fun fuel => mmciReadBlock card fuel addr) s 512 t
  bounded : ∀ fuel, 4 * (final ((mmciReadBlock card fuel addr).run s)).stored.length ≤ 512

section Fifo

variable {card : Card} {s : Driver}

def afterWords (card : Card) (s : Driver) (k : Nat) : Driver :=
  { s with
    polls := s.polls + k
    stored := s.stored ++ (List.range k).map fun i => card.fifo (s.stored.length + i) }

theorem afterWords_zero (card : Card) (s : Driver) : afterWords card s 0 = s := by
  simp [afterWords]

theorem afterWords_succ (card : Card) (s : Driver) (k : Nat) :
    afterWords card (afterWords card s 1) k = afterWords card s (k + 1) := by
  simp [afterWords, List.range_succ_eq_map, Function.comp_def, Nat.add_assoc, Nat.add_comm, Nat.add_left_comm]

theorem length_afterWords (card : Card) (s : Driver) (k : Nat) :
    (afterWords card s k).stored.length = s.stored.length + k := by
  simp [afterWords]

theorem readFifo_available (h : Available card s.polls) (fuel : Nat) (bytesRead : U32) :
    (readFifo card (fuel + 1) bytesRead).run s =
      (readFifo card fuel (bytesRead + 4)).run (afterWords card s 1) :=
  congrFun (if_pos h) _

theorem readFifo_empty (h : ¬ Available card s.polls) (fuel : Nat) (bytesRead : U32) :
    (readFifo card (fuel + 1) bytesRead).run s = .ok bytesRead { s with polls := s.polls + 1 } :=
  congrFun (if_neg h) _

theorem readFifo_words {k : Nat} (h : ∀ i < k, Available card (s.polls + i)) (fuel : Nat) (bytesRead : U32) :
    (readFifo card (fuel + k) bytesRead).run s =
      (readFifo card fuel (bytesRead + BitVec.ofNat 32 (4 * k))).run (afterWords card s k) := by
  induction k generalizing s bytesRead with
  | zero => rw [afterWords_zero, Nat.mul_zero, Nat.add_zero, BitVec.add_zero]
  | succ k ih =>
      have hrest : ∀ i < k, Available card ((afterWords card s 1).polls + i) := by
        intro i hi
        rw [show (afterWords card s 1).polls + i = s.polls + (i + 1) from Nat.add_right_comm s.polls 1 i]
        exact h (i + 1) (Nat.succ_lt_succ hi)
      rw [← Nat.add_assoc, readFifo_available (h 0 (Nat.succ_pos k)), ih hrest, afterWords_succ, Nat.mul_succ,
        Nat.add_comm (4 * k), BitVec.ofNat_add, ← BitVec.add_assoc]
      rfl

theorem readFifo_returns {k : Nat} (h : ∀ i < k, Available card (s.polls + i))
    (hempty : ¬ Available card (s.polls + k)) (fuel : Nat) (bytesRead : U32) :
    (readFifo card (fuel + 1 + k) bytesRead).run s = .ok (bytesRead + BitVec.ofNat 32 (4 * k))
      { afterWords card s k with polls := s.polls + k + 1 } := by
  rw [readFifo_words h]
  exact readFifo_empty hempty fuel _

theorem readFifo_length_le {k : Nat} (hempty : ¬ Available card (s.polls + k)) (fuel : Nat) (bytesRead : U32) :
    (final ((readFifo card fuel bytesRead).run s)).stored.length ≤ s.stored.length + k := by
  induction fuel generalizing s k bytesRead with
  | zero => exact Nat.le_add_right _ k
  | succ fuel ih =>
      by_cases h : Available card s.polls
      · cases k with
        | zero => exact absurd h hempty
        | succ k =>
            have hrest : ¬ Available card ((afterWords card s 1).polls + k) := by
              rwa [show (afterWords card s 1).polls + k = s.polls + (k + 1) from Nat.add_right_comm s.polls 1 k]
            rw [readFifo_available h]
            refine (ih hrest _).trans_eq ?_
            rw [length_afterWords, Nat.add_assoc, Nat.add_comm 1]
      · rw [readFifo_empty h]
        exact Nat.le_add_right _ k

theorem le_readFifo_length (card : Card) (s : Driver) (fuel : Nat) (bytesRead : U32) :
    s.stored.length ≤ (final ((readFifo card fuel bytesRead).run s)).stored.length := by
  induction fuel generalizing s bytesRead with
  | zero => exact le_rfl
  | succ fuel ih =>
      by_cases h : Available card s.polls
      · rw [readFifo_available h]
        refine le_trans ?_ (ih (afterWords card s 1) _)
        rw [length_afterWords]
        exact Nat.le_add_right _ 1
      · rw [readFifo_empty h]
        exact le_rfl

end Fifo

section Call

variable {card : Card} {s : Driver} {sd : SdCard} {q : Nat}

theorem and_bit_three_ne_one (x : U32) : x &&& bit 3 ≠ 1 := by
  intro h
  have hlow := congrArg (fun y => BitVec.getLsbD y 0) h
  simp [bit] at hlow

theorem mmciReadBlock_run (hsd : s.mmciSdCard = some sd) (fuel : Nat) (addr : U32) :
    (mmciReadBlock card fuel addr).run s = (do
      mmciSendCmd card fuel readCmd (if sd.ishc then addr else addr * 512)
      if (← readStatus card) &&& bit 3 = 1 then return 0
      readFifo card fuel 0).run { s with stored := [] } := by
  cases s with
  | mk polls sent mmciSdCard stored =>
      cases hsd
      rfl

/-- The error test lets every status pass. -/
theorem mmciReadBlock_sent {t : Driver} (hsd : s.mmciSdCard = some sd) {fuel : Nat} {addr : U32}
    (hsend : (mmciSendCmd card fuel readCmd (if sd.ishc then addr else addr * 512)).run { s with stored := [] } =
      .ok () t) :
    (mmciReadBlock card fuel addr).run s = (readFifo card fuel 0).run { t with polls := t.polls + 1 } := by
  rw [mmciReadBlock_run hsd, run_bind_ok hsend]
  exact congrFun (if_neg (and_bit_three_ne_one _)) _

theorem mmciReadBlock_final (hsd : s.mmciSdCard = some sd) (fuel : Nat) (addr : U32) :
    (final ((mmciReadBlock card fuel addr).run s)).stored = [] ∨ ∃ q, DataPhase card s q ∧
      ∃ t : Driver, t.polls = q ∧ t.stored = [] ∧
        (mmciReadBlock card fuel addr).run s = (readFifo card fuel 0).run t := by
  have hends := mmciSendCmd_ends card fuel readCmd (if sd.ishc then addr else addr * 512) { s with stored := [] }
  rw [Ends] at hends
  cases hsend : (mmciSendCmd card fuel readCmd (if sd.ishc then addr else addr * 512)).run { s with stored := [] } with
  | ok a t =>
      rw [hsend] at hends
      obtain ⟨p, rfl, hp⟩ := hends
      exact .inr ⟨p + 1, ⟨p, hp, rfl⟩, _, rfl, rfl, mmciReadBlock_sent hsd hsend⟩
  | error e t =>
      rw [hsend] at hends
      obtain ⟨p, rfl⟩ := hends
      rw [mmciReadBlock_run hsd, run_bind_error hsend]
      exact .inl rfl

theorem mmciReadBlock_reaches (hsd : s.mmciSdCard = some sd) (hq : DataPhase card s q) (addr : U32) :
    ∃ (t : Driver) (n : Nat), t.polls = q ∧ t.stored = [] ∧
      ∀ fuel, n ≤ fuel → (mmciReadBlock card fuel addr).run s = (readFifo card fuel 0).run t := by
  obtain ⟨p, hp, rfl⟩ := hq
  obtain ⟨n, hn⟩ := mmciSendCmd_settles (s := { s with stored := [] }) hp (if sd.ishc then addr else addr * 512)
  exact ⟨_, n, rfl, rfl, fun fuel hfuel => mmciReadBlock_sent hsd (hn fuel hfuel)⟩

theorem dataPhase_unique {q' : Nat} (hq : DataPhase card s q) (hq' : DataPhase card s q') : q = q' := by
  obtain ⟨p, ⟨a, ha, hp⟩, rfl⟩ := hq
  obtain ⟨p', ⟨a', ha', hp'⟩, rfl⟩ := hq'
  cases ha.unique ha'
  exact congrArg (· + 1) (hp.unique hp')

theorem stored_of_reads (hsd : s.mmciSdCard = some sd) (hq : DataPhase card s q) {k : Nat}
    (h : ∀ i < k, Available card (q + i)) (addr : U32) :
    ∃ fuel, k ≤ (final ((mmciReadBlock card fuel addr).run s)).stored.length := by
  obtain ⟨t, n, rfl, hstored, hrun⟩ := mmciReadBlock_reaches hsd hq addr
  refine ⟨n + k, ?_⟩
  rw [hrun _ (Nat.le_add_right n k), readFifo_words h]
  refine le_trans ?_ (le_readFifo_length card _ n _)
  rw [length_afterWords, hstored]
  exact Nat.le_add_left k _

theorem settles_of_empty (hsd : s.mmciSdCard = some sd) (hq : DataPhase card s q) {k : Nat}
    (h : ∀ i < k, Available card (q + i)) (hempty : ¬ Available card (q + k)) (addr : U32) :
    ∃ t : Driver, t.stored = (List.range k).map card.fifo ∧
      Settles (fun fuel => mmciReadBlock card fuel addr) s (BitVec.ofNat 32 (4 * k)) t := by
  obtain ⟨t, n, rfl, hstored, hrun⟩ := mmciReadBlock_reaches hsd hq addr
  refine ⟨{ afterWords card t k with polls := t.polls + k + 1 }, ?_, n + 1 + k, fun fuel hfuel => ?_⟩
  · simp [afterWords, hstored]
  · obtain ⟨m, rfl⟩ := Nat.exists_eq_add_of_le hfuel
    rw [hrun _ (by omega), show n + 1 + k + m = n + m + 1 + k by omega, readFifo_returns h hempty, zero_add]

end Call

/-- For every status sequence: a block is read as a whole where a word is there at each
of the first 128 polls, and the loop is left in time where one of the first 129 shows none. -/
theorem readsBlocks_iff {card : Card} {s : Driver} {sd : SdCard} (hsd : s.mmciSdCard = some sd) (addr : U32) :
    ReadsBlocks card s addr ↔ ∀ q, DataPhase card s q → (∃ i ≤ 128, ¬ Available card (q + i)) ∧
      (Delivers card s q → ∀ i < 128, Available card (q + i)) := by
  constructor
  · intro h q hq
    constructor
    · by_contra hnone
      have hall : ∀ i < 129, Available card (q + i) :=
        fun i hi => not_not.mp fun hempty => hnone ⟨i, Nat.le_of_lt_succ hi, hempty⟩
      obtain ⟨fuel, hfuel⟩ := stored_of_reads hsd hq hall addr
      have hbound := h.bounded fuel
      omega
    · intro hdelivers
      obtain ⟨n, -, hrest⟩ := hdelivers.words
      have hexists : ∃ k, ¬ Available card (q + k) := ⟨n, hrest n le_rfl⟩
      have hbefore : ∀ i < Nat.find hexists, Available card (q + i) :=
        fun i hi => not_not.mp (Nat.find_min hexists hi)
      obtain ⟨t, hstored, hsettles⟩ := settles_of_empty hsd hq hbefore (Nat.find_spec hexists) addr
      obtain ⟨u, hwhole, hreturns⟩ := h.whole q hq hdelivers
      have hsame := hsettles.unique hreturns
      have hlength := congrArg List.length (hstored.symm.trans ((congrArg Driver.stored hsame.2).trans hwhole))
      simp only [List.length_map, List.length_range] at hlength
      rwa [hlength] at hbefore
  · intro h
    refine ⟨fun q hq hdelivers => ?_, fun fuel => ?_⟩
    · have hall := (h q hq).2 hdelivers
      obtain ⟨i, hi, hempty⟩ := (h q hq).1
      have hlast : i = 128 := le_antisymm hi (not_lt.mp fun hlt => hempty (hall i hlt))
      exact settles_of_empty hsd hq hall (hlast ▸ hempty) addr
    · rcases mmciReadBlock_final hsd fuel addr with hnone | ⟨q, hq, t, rfl, hstored, hrun⟩
      · rw [hnone]
        exact Nat.zero_le _
      · obtain ⟨i, hi, hempty⟩ := (h _ hq).1
        have hbound := readFifo_length_le hempty fuel 0
        rw [hrun]
        rw [hstored] at hbound
        simp only [List.length_nil] at hbound
        omega

section Runs

/-- A card that answers at once and then shows a word at the polls with these numbers. -/
def answering (words : Nat → Bool) : Card where
  status n := if n < 5 then bit 6 else if words n then bit 21 else 0
  response _ := 0
  fifo k := BitVec.ofNat 32 k
  refused := false

def selected : Driver := ⟨0, [], some ⟨0, true⟩, []⟩

theorem dataPhase_answering (words : Nat → Bool) : DataPhase (answering words) selected 5 := by
  have hstatus : ∀ n < 5, (answering words).status n = bit 6 := fun n hn => if_pos hn
  have hactive : activeBody (answering words).status 1 = .done 2 := by
    rw [activeBody, hstatus 1 (by decide)]
    rfl
  have hanswer : answerBody (answering words).status readCmd 2 = .done 4 := by
    rw [answerBody, if_pos (by decide), responseBody, hstatus 2 (by decide), hstatus 3 (by decide)]
    rfl
  exact ⟨4, ⟨2, .of_done hactive, .of_done hanswer⟩, rfl⟩

theorem steady_readsBlocks : ReadsBlocks (answering (· < 133)) selected 0 := by
  refine (readsBlocks_iff rfl 0).mpr fun q hq => ?_
  cases dataPhase_unique (dataPhase_answering _) hq
  exact ⟨⟨128, le_rfl, by decide⟩, fun _ => by decide +kernel⟩

/-- The first word of the block is there one poll late. -/
theorem late_delivers : Delivers (answering fun n => 5 < n && n < 134) selected 5 := by
  refine ⟨fun n _ => ?_, 129, by decide +kernel, fun i hi => not_not_intro ?_⟩
  · simp only [answering]
    split
    · decide
    · split <;> decide
  · have hlate : ¬ 5 + i < 5 := by omega
    have hend : (decide (5 < 5 + i) && decide (5 + i < 134)) = false := by
      rw [decide_eq_false (by omega : ¬ 5 + i < 134), Bool.and_false]
    simp only [answering, if_neg hlate, hend]
    decide

/-- Where the first word is late, nothing is read, and where the bit stays set, a word is
stored behind the block. -/
theorem late_not_read :
    (final ((mmciReadBlock (answering fun n => 5 < n && n < 134) 9 0).run selected)).stored = [] ∧
      ¬ ReadsBlocks (answering fun n => 5 < n && n < 134) selected 0 ∧
      (final ((mmciReadBlock (answering fun _ => true) 129 0).run selected)).stored.length = 129 ∧
      ¬ ReadsBlocks (answering fun _ => true) selected 0 := by
  have hover : (final ((mmciReadBlock (answering fun _ => true) 129 0).run selected)).stored.length = 129 := by
    decide +kernel
  refine ⟨by decide +kernel, fun h => ?_, hover, fun h => ?_⟩
  · obtain ⟨t, -, hsettles⟩ := settles_of_empty rfl (dataPhase_answering fun n => 5 < n && n < 134) (k := 0)
      (fun i hi => absurd hi (Nat.not_lt_zero i)) (by decide) 0
    obtain ⟨u, -, hreturns⟩ := h.whole 5 (dataPhase_answering _) late_delivers
    exact absurd (hsettles.unique hreturns).1 (by decide)
  · have hbound := h.bounded 129
    rw [hover] at hbound
    exact absurd hbound (by decide)

end Runs

end MetalNes.BlockReads
