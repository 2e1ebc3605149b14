import MetalNes.SdCommands

namespace MetalNes.SdHandshake

open Loop Outcomes Pl181 SdCommands

/-- A command that was sent, by its number, and the response register behind it. -/
structure Exchange where
  cmd : U32
  response : U32
  deriving DecidableEq, Repr

def exchanges (card : Card) : Nat → List (U32 × U32) → List Exchange
  | _, [] => []
  | n, c :: cs => ⟨number c, card.response (n + 1)⟩ :: exchanges card (n + 1) cs

/-- CMD2, CMD3 and CMD7 come behind the echo and behind an ACMD41 that found the card
powered up, and an ACMD41 that did not is sent again. -/
structure Ordered (l : List Exchange) : Prop where
  guarded : ∀ before e, before ++ [e] <+: l → e.cmd ∈ [2, 3, 7] →
    (∃ a ∈ before, a.cmd = 8 ∧ a.response = 0x1AA) ∧ ∃ b ∈ before, b.cmd = 41 ∧ b.response &&& bit 31 ≠ 0
  repeated : ∀ before b mid e, before ++ [b] ++ mid ++ [e] <+: l → b.cmd = 41 → b.response &&& bit 31 = 0 →
    (∀ m ∈ mid, m.cmd = 55) → e.cmd = 55 ∨ e.cmd = 41

def lastAcmd41 (l : List Exchange) : Option U32 := (l.filter fun e => e.cmd = 41).getLast?.map Exchange.response

structure Handshakes (card : Card) (d : Driver) : Prop where
  ordered : Ordered (exchanges card 0 d.sent)
  capacity : (∃ e ∈ exchanges card 0 d.sent, e.cmd = 7) → d.mmciSdCard.map SdCard.ishc =
    (lastAcmd41 (exchanges card 0 d.sent)).map fun r => asBool (r &&& bit 30)

/-- At no time of a call is the order broken. -/
def KeepsOrder (card : Card) (s : Driver) : Prop :=
  ∀ fuel, Handshakes card (final ((pl181GetBlockDevice card fuel).run s))

section Lists

variable {card : Card}

theorem exchanges_append (n : Nat) (cs ds : List (U32 × U32)) :
    exchanges card n (cs ++ ds) = exchanges card n cs ++ exchanges card (n + cs.length) ds := by
  induction cs generalizing n with
  | nil => rfl
  | cons c cs ih =>
      rw [List.cons_append, exchanges, ih, exchanges, List.length_cons, Nat.add_right_comm n 1]
      rfl

theorem exists_of_mem_exchanges {n : Nat} {cs : List (U32 × U32)} {e : Exchange} (h : e ∈ exchanges card n cs) :
    ∃ c ∈ cs, e.cmd = number c := by
  induction cs generalizing n with
  | nil => cases h
  | cons c cs ih =>
      rcases List.mem_cons.mp h with rfl | h
      · exact ⟨c, List.mem_cons_self, rfl⟩
      · obtain ⟨d, hd, he⟩ := ih h
        exact ⟨d, List.mem_cons_of_mem c hd, he⟩

end Lists

section Order

variable {card : Card} {s d : Driver}

theorem dropLast_exchanges (card : Card) (n : Nat) (cs : List (U32 × U32)) :
    (exchanges card n cs).dropLast = exchanges card n cs.dropLast := by
  induction cs generalizing n with
  | nil => rfl
  | cons c cs ih =>
      cases cs with
      | nil => rfl
      | cons d cs => exact congrArg _ (ih (n + 1))

theorem opens_not_guarded {x : U32} (h : x ∈ [0, 8, 55, 41]) : x ∉ [2, 3, 7] := by
  simp only [List.mem_cons, List.not_mem_nil, or_false] at h
  rcases h with rfl | rfl | rfl | rfl <;> decide

theorem handshakes_of_quiet (h : Quiet d.sent) : Handshakes card d := by
  have hopens : ∀ e ∈ exchanges card 0 d.sent, e.cmd ∈ [0, 8, 55, 41] := by
    intro e he
    obtain ⟨c, hc, hcmd⟩ := exists_of_mem_exchanges he
    rw [hcmd]
    exact h.1 c hc
  refine ⟨⟨fun before e hinitial hguarded => ?_, fun before b mid e hinitial hb => ?_⟩, ?_⟩
  · exact absurd hguarded (opens_not_guarded (hopens e (hinitial.subset (by simp))))
  · obtain ⟨rest, hrest⟩ := hinitial
    rw [List.append_assoc] at hrest
    have hmem : b ∈ (exchanges card 0 d.sent).dropLast := by
      rw [← hrest, List.dropLast_append_of_ne_nil (by simp)]
      simp
    rw [dropLast_exchanges] at hmem
    obtain ⟨c, hc, hcmd⟩ := exists_of_mem_exchanges hmem
    exact absurd (hcmd.symm.trans hb) (h.2 c hc)
  · rintro ⟨e, he, hseven⟩
    have hmem := opens_not_guarded (hopens e he)
    rw [hseven] at hmem
    exact absurd (by decide) hmem

/-- The exchanges of the first part, with the ACMD41 at its end. -/
def opened (card : Card) (sd : Option SdCard) (i : Nat) : List Exchange :=
  exchanges card 0 (announcement sd i) ++ [⟨41, card.response (i + 4)⟩]

theorem exchanges_opening (card : Card) (sd : Option SdCard) (i : Nat) :
    exchanges card 0 (opening sd i) = opened card sd i := by
  rw [opening, exchanges_append, length_announcement, Nat.zero_add]
  rfl

theorem cmd_of_mem_announced {sd : Option SdCard} {i : Nat} {e : Exchange}
    (h : e ∈ exchanges card 0 (announcement sd i)) : e.cmd ∈ [0, 8, 55] := by
  obtain ⟨c, hc, hcmd⟩ := exists_of_mem_exchanges h
  rw [hcmd]
  exact number_announcement hc

theorem cmd_of_mem_opened {sd : Option SdCard} {i : Nat} {e : Exchange} (h : e ∈ opened card sd i) :
    e.cmd ∈ [0, 8, 55, 41] := by
  rcases List.mem_append.mp h with h | h
  · exact List.mem_append_left [41] (cmd_of_mem_announced h)
  · rw [List.mem_singleton.mp h]
    exact (by decide : (41 : U32) ∈ [0, 8, 55, 41])

theorem echo_of_mem_opened {sd : Option SdCard} {i : Nat} {e : Exchange} (h : e ∈ opened card sd i)
    (hcmd : e.cmd = 8) : e.response = card.response 2 := by
  rcases List.mem_append.mp h with h | h
  · rcases List.mem_cons.mp h with rfl | h
    · exact absurd hcmd (by decide : (0 : U32) ≠ 8)
    rcases List.mem_cons.mp h with rfl | h
    · rfl
    obtain ⟨c, hc, he⟩ := exists_of_mem_exchanges h
    rw [(List.mem_replicate.mp hc).2, number_cmd55] at he
    exact absurd (hcmd.symm.trans he) (by decide)
  · rw [List.mem_singleton.mp h] at hcmd
    exact absurd hcmd (by decide : (41 : U32) ≠ 8)

theorem acmd41_of_mem_opened {sd : Option SdCard} {i : Nat} {e : Exchange} (h : e ∈ opened card sd i)
    (hcmd : e.cmd = 41) : e.response = card.response (i + 4) := by
  rcases List.mem_append.mp h with h | h
  · have hmem := cmd_of_mem_announced h
    rw [hcmd] at hmem
    exact absurd hmem (by decide)
  · rw [List.mem_singleton.mp h]

theorem number_closing {n : Nat} {c : U32 × U32} (h : c ∈ closing card n) : number c ∈ [2, 3, 7, 16] := by
  have hrca : ∀ x, number (7 ||| EXE ||| RESP, x) ∈ [2, 3, 7, 16] :=
    fun _ => (by decide : (7 ||| EXE ||| RESP) &&& 0x3F ∈ [2, 3, 7, 16])
  simp only [closing, List.mem_cons, List.not_mem_nil, or_false] at h
  rcases h with rfl | rfl | rfl | rfl
  · decide
  · decide
  · exact hrca _
  · decide

theorem two_lt_of_cmd7 {n k : Nat} {c : U32 × U32} (h : c ∈ (closing card n).take k) (hseven : number c = 7) :
    2 < k := by
  by_contra hk
  have hmem : c ∈ (closing card n).take 2 := (List.take_prefix_take_left (not_lt.mp hk)).subset h
  simp only [closing, List.take_succ_cons, List.take_zero, List.mem_cons, List.not_mem_nil, or_false] at hmem
  rcases hmem with rfl | rfl <;> exact absurd hseven (by decide)

theorem exchanges_selects {i k : Nat} (h : Selects card s d i k) : ∃ C, exchanges card 0 d.sent =
    opened card s.mmciSdCard i ++ C ∧ ∀ e ∈ C, e.cmd ∈ [2, 3, 7, 16] ∧
      (e.cmd = 7 → d.mmciSdCard.map SdCard.ishc = some (asBool (card.response (i + 4) &&& bit 30))) := by
  obtain ⟨t, isHC, hopened, rfl, hsent, hcard⟩ := h
  refine ⟨exchanges card t.sent.length ((closing card t.sent.length).take k), ?_, fun e he => ?_⟩
  · rw [hsent, exchanges_append, hopened.sent, exchanges_opening, Nat.zero_add]
  · obtain ⟨c, hc, hcmd⟩ := exists_of_mem_exchanges he
    rw [hcmd]
    exact ⟨number_closing (List.mem_of_mem_take hc), fun hseven => hcard (two_lt_of_cmd7 hc hseven)⟩

theorem lastAcmd41_opened (card : Card) (sd : Option SdCard) (i : Nat) {C : List Exchange}
    (hC : ∀ e ∈ C, e.cmd ∈ [2, 3, 7, 16]) : lastAcmd41 (opened card sd i ++ C) = some (card.response (i + 4)) := by
  have hannounced : (exchanges card 0 (announcement sd i)).filter (fun e => e.cmd = 41) = [] := by
    refine List.filter_eq_nil_iff.mpr fun e he hcmd => ?_
    have hmem := cmd_of_mem_announced he
    rw [of_decide_eq_true hcmd] at hmem
    exact absurd hmem (by decide)
  have hclosing : C.filter (fun e => e.cmd = 41) = [] := by
    refine List.filter_eq_nil_iff.mpr fun e he hcmd => ?_
    have hmem := hC e he
    rw [of_decide_eq_true hcmd] at hmem
    exact absurd hmem (by decide)
  rw [lastAcmd41, List.filter_append, hclosing, opened, List.filter_append, hannounced]
  rfl

theorem handshakes_of_selects {i k : Nat} (h : Selects card s d i k) (hecho : card.response 2 = 0x1AA)
    (hready : card.response (i + 4) &&& bit 31 ≠ 0) : Handshakes card d := by
  obtain ⟨C, hl, hC⟩ := exchanges_selects h
  have hcmds := fun e he => (hC e he).1
  refine ⟨⟨fun before e hinitial hguarded => ?_, fun before b mid e hinitial hb hbusy => ?_⟩, ?_⟩
  · rw [hl] at hinitial
    have hbefore := (List.prefix_append before [e]).trans hinitial
    have hopened : opened card s.mmciSdCard i <+: before := by
      refine List.prefix_of_prefix_length_le (List.prefix_append _ C) hbefore (not_lt.mp fun hlt => ?_)
      have hwithin : before ++ [e] <+: opened card s.mmciSdCard i := by
        refine List.prefix_of_prefix_length_le hinitial (List.prefix_append _ C) ?_
        rw [List.length_append]
        exact hlt
      exact opens_not_guarded (cmd_of_mem_opened (hwithin.subset (by simp))) hguarded
    have hvoltage : (⟨8, card.response 2⟩ : Exchange) ∈ opened card s.mmciSdCard i :=
      List.mem_append_left _ (List.mem_cons_of_mem _ List.mem_cons_self)
    have hpowered : (⟨41, card.response (i + 4)⟩ : Exchange) ∈ opened card s.mmciSdCard i :=
      List.mem_append_right _ (List.mem_singleton_self _)
    exact ⟨⟨_, hopened.subset hvoltage, rfl, hecho⟩, _, hopened.subset hpowered, rfl, hready⟩
  · rw [hl] at hinitial
    have hmem := hinitial.subset (by simp : b ∈ before ++ [b] ++ mid ++ [e])
    rcases List.mem_append.mp hmem with hmem | hmem
    · rw [acmd41_of_mem_opened hmem hb] at hbusy
      exact absurd hbusy hready
    · have hclosing := hcmds b hmem
      rw [hb] at hclosing
      exact absurd hclosing (by decide)
  · rw [hl, lastAcmd41_opened card _ i hcmds]
    rintro ⟨e, he, hseven⟩
    rcases List.mem_append.mp he with he | he
    · have hmem := cmd_of_mem_opened he
      rw [hseven] at hmem
      exact absurd hmem (by decide)
    · exact (hC e he).2 hseven

end Order

/-- For every card and all its responses: the order is kept where the card is turned away
or stops answering before CMD2, and where it gave the echo and was powered up at the
first ACMD41. -/
theorem keepsOrder_iff (card : Card) {s : Driver} (hs : s.sent = []) : KeepsOrder card s ↔
    ∀ i < 5, FirstAccepted card 2 i → card.response 2 ||| 0x1AA = 0x1AA →
      (∃ p, CommandsEnd card (opening s.mmciSdCard i) s.polls p) →
      card.response 2 = 0x1AA ∧ card.response (i + 4) &&& bit 31 ≠ 0 := by
  constructor
  · rintro h i hi hfirst hpasses ⟨p, hends⟩
    obtain ⟨fuel, hsent⟩ := sends_cmd2 hs hpasses hfirst hi hends
    obtain ⟨rest, hrest⟩ := hsent
    have hinitial : opened card s.mmciSdCard i ++ [⟨2, card.response (i + 5)⟩] <+:
        exchanges card 0 (final ((pl181GetBlockDevice card fuel).run s)).sent := by
      rw [← hrest, exchanges_append, exchanges_append, exchanges_opening]
      refine List.IsPrefix.trans ?_ (List.prefix_append _ _)
      rw [opening, List.length_append, length_announcement, Nat.zero_add]
      exact List.prefix_rfl
    obtain ⟨⟨a, ha, hacmd, hecho⟩, b, hb, hbcmd, hready⟩ := (h fuel).ordered.guarded _ _ hinitial (by simp)
    rw [echo_of_mem_opened ha hacmd] at hecho
    rw [acmd41_of_mem_opened hb hbcmd] at hready
    exact ⟨hecho, hready⟩
  · intro h fuel
    rcases pl181GetBlockDevice_final card fuel hs with hquiet | ⟨i, k, hselects⟩
    · exact handshakes_of_quiet hquiet
    · have hparts := hselects
      obtain ⟨t, -, hopened, -⟩ := hparts
      obtain ⟨hecho, hready⟩ := h i hopened.count hopened.first hopened.echo ⟨_, hopened.ends⟩
      exact handshakes_of_selects hselects hecho hready

/-- A card that answers every command at once, with these responses to the commands from
CMD8 to the first ACMD41. -/
def prompt (echo app ready : U32) : Card where
  status _ := bit 6 ||| bit 7
  response n := [0, 0, echo, app, ready].getD n 0
  fifo _ := 0
  refused := false

def fresh : Driver := ⟨0, [], none, []⟩

theorem poweredUp_keepsOrder : KeepsOrder (prompt 0x1AA (bit 5) (bit 31 ||| bit 30)) fresh := by
  refine (keepsOrder_iff _ rfl).mpr fun i _ hfirst _ _ => ⟨rfl, ?_⟩
  cases i with
  | zero => decide
  | succ i => exact absurd (by decide : Accepted (prompt 0x1AA (bit 5) _) 3) (hfirst.2 0 (Nat.succ_pos i))

/-- The response to ACMD41 says that the card is still busy, and CMD2 comes next. -/
theorem busy_not_keepsOrder : (final ((pl181GetBlockDevice (prompt 0x1AA (bit 5) 0) 2).run fresh)).sent.map number =
    [0, 8, 55, 41, 2, 3, 7, 16] ∧ ¬ KeepsOrder (prompt 0x1AA (bit 5) 0) fresh := by
  refine ⟨by decide +kernel, fun h => ?_⟩
  have hguarded := (h 2).ordered.guarded [⟨0, 0⟩, ⟨8, 0x1AA⟩, ⟨55, bit 5⟩, ⟨41, 0⟩] ⟨2, 0⟩
    (by decide +kernel) (by decide)
  exact absurd hguarded.2 (by decide)

end MetalNes.SdHandshake
