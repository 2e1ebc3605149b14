import MetalNes.Pl181

namespace MetalNes.SdCommands

open Loop Outcomes Pl181

def number (cmd : U32 × U32) : U32 := cmd.1 &&& 0x3F

def Accepted (card : Card) (n : Nat) : Prop := card.response n &&& bit 5 ≠ 0

instance (card : Card) (n : Nat) : Decidable (Accepted card n) := inferInstanceAs (Decidable (_ ≠ _))

/-- The first of the commands behind the n-th that is accepted. -/
def FirstAccepted (card : Card) (n i : Nat) : Prop :=
  Accepted card (n + i + 1) ∧ ∀ j < i, ¬ Accepted card (n + j + 1)

def acmd41 : U32 × U32 := (41 ||| EXE ||| RESP, bit 30 ||| 0x1AA)

/-- The commands up to the one that announces ACMD41 with success. -/
def announcement (sd : Option SdCard) (i : Nat) : List (U32 × U32) :=
  (0 ||| EXE, 0) :: (8 ||| EXE ||| RESP, 0x1AA) :: List.replicate (i + 1) (cmd55 sd)

def opening (sd : Option SdCard) (i : Nat) : List (U32 × U32) := announcement sd i ++ [acmd41]

/-- Each command is done, and the next one is sent at the poll behind it. -/
def CommandsEnd (card : Card) : List (U32 × U32) → Nat → Nat → Prop
  | [], p, p' => p = p'
  | c :: cs, p, p' => ∃ q, CommandEnds card c.1 p q ∧ CommandsEnd card cs q p'

theorem number_cmd55 (sd : Option SdCard) : number (cmd55 sd) = 55 := by
  cases sd with
  | none => decide
  | some sd => exact (by decide : (55 : U32) &&& 0x3F = 55)

theorem number_announcement {sd : Option SdCard} {i : Nat} {c : U32 × U32} (h : c ∈ announcement sd i) :
    number c ∈ [0, 8, 55] := by
  simp only [announcement, List.mem_cons, List.mem_replicate] at h
  rcases h with rfl | rfl | ⟨-, rfl⟩
  · decide
  · decide
  · rw [number_cmd55]
    decide

theorem length_announcement (sd : Option SdCard) (i : Nat) : (announcement sd i).length = i + 3 := by
  simp [announcement]

/-- Nothing was sent yet but the commands that open the card, and behind an ACMD41, nothing. -/
def Quiet (sent : List (U32 × U32)) : Prop :=
  (∀ c ∈ sent, number c ∈ [0, 8, 55, 41]) ∧ ∀ c ∈ sent.dropLast, number c ≠ 41

section Opening

variable {card : Card} {s : Driver}

theorem quiet_of_announcing {sent : List (U32 × U32)} (h : ∀ c ∈ sent, number c ∈ [0, 8, 55]) : Quiet sent := by
  refine ⟨fun c hc => List.mem_append_left [41] (h c hc), fun c hc he => ?_⟩
  have hmem := h c (List.dropLast_subset sent hc)
  rw [he] at hmem
  exact absurd hmem (by decide)

theorem quiet_snoc_acmd41 {sent : List (U32 × U32)} (h : ∀ c ∈ sent, number c ∈ [0, 8, 55]) :
    Quiet (sent ++ [acmd41]) := by
  constructor
  · intro c hc
    rcases List.mem_append.mp hc with hc | hc
    · exact List.mem_append_left [41] (h c hc)
    · rw [List.mem_singleton.mp hc]
      decide
  · rw [List.dropLast_concat]
    intro c hc he
    have hmem := h c hc
    rw [he] at hmem
    exact absurd hmem (by decide)

theorem announcing_snoc {sent : List (U32 × U32)} {c : U32 × U32} (h : ∀ c ∈ sent, number c ∈ [0, 8, 55])
    (hc : number c ∈ [0, 8, 55]) : ∀ d ∈ sent ++ [c], number d ∈ [0, 8, 55] :=
  List.forall_mem_append.mpr ⟨h, List.forall_mem_singleton.mpr hc⟩

/-- What mmci_send_app_cmd has done where it returns true. -/
structure SentAppCmd (card : Card) (s t : Driver) (i : Nat) : Prop where
  first : FirstAccepted card s.sent.length i
  sent : t.sent = s.sent ++ List.replicate (i + 1) (cmd55 s.mmciSdCard) ++ [acmd41]
  same : t.mmciSdCard = s.mmciSdCard
  ends : CommandsEnd card (List.replicate (i + 1) (cmd55 s.mmciSdCard) ++ [acmd41]) s.polls t.polls

theorem readResponse_after (card : Card) (s : Driver) (arg param : U32) (p : Nat) :
    (readResponse card).run (s.after arg param p) =
      .ok (card.response (s.sent.length + 1)) (s.after arg param p) := by
  rw [← show (s.after arg param p).sent.length = s.sent.length + 1 from List.length_append]
  rfl

theorem FirstAccepted.after {n i : Nat} (h : FirstAccepted card (n + 1) i) (hnot : ¬ Accepted card (n + 1)) :
    FirstAccepted card n (i + 1) := by
  have hplace : ∀ j, n + (j + 1) + 1 = n + 1 + j + 1 := fun j => by omega
  refine ⟨by rw [hplace]; exact h.1, fun j hj => ?_⟩
  cases j with
  | zero => exact hnot
  | succ j =>
      rw [hplace]
      exact h.2 j (Nat.lt_of_succ_lt_succ hj)

theorem FirstAccepted.next {n i : Nat} (h : FirstAccepted card n (i + 1)) : FirstAccepted card (n + 1) i := by
  have hplace : ∀ j, n + (j + 1) + 1 = n + 1 + j + 1 := fun j => by omega
  refine ⟨by rw [← hplace]; exact h.1, fun j hj => ?_⟩
  rw [← hplace]
  exact h.2 (j + 1) (Nat.succ_lt_succ hj)

theorem SentAppCmd.after {t : Driver} {i p : Nat}
    (h : SentAppCmd card (s.after (cmd55 s.mmciSdCard).1 (cmd55 s.mmciSdCard).2 p) t i)
    (hp : CommandEnds card (cmd55 s.mmciSdCard).1 s.polls p) (hnot : ¬ Accepted card (s.sent.length + 1)) :
    SentAppCmd card s t (i + 1) where
  first := by
    have hfirst := h.first
    rw [show (s.after (cmd55 s.mmciSdCard).1 (cmd55 s.mmciSdCard).2 p).sent.length = s.sent.length + 1 from
      List.length_append] at hfirst
    exact hfirst.after hnot
  sent := by
    have hreplicate : List.replicate (i + 1 + 1) (cmd55 s.mmciSdCard) =
        cmd55 s.mmciSdCard :: List.replicate (i + 1) (cmd55 s.mmciSdCard) := rfl
    rw [h.sent, hreplicate, List.append_cons s.sent]
    rfl
  same := h.same
  ends := ⟨p, hp, h.ends⟩

theorem mmciSendAppCmd_ends (card : Card) (fuel count : Nat) (h : ∀ c ∈ s.sent, number c ∈ [0, 8, 55]) :
    Ends (mmciSendAppCmd card fuel acmd41.1 acmd41.2 count) s (fun t => Quiet t.sent) fun accepted t =>
      if accepted then ∃ i < count, SentAppCmd card s t i else Quiet t.sent := by
  induction count generalizing s with
  | zero => exact .of_ok rfl (quiet_of_announcing h)
  | succ count ih =>
      have hannounced := announcing_snoc h (c := cmd55 s.mmciSdCard) (by rw [number_cmd55]; decide)
      refine .bind_ok rfl (.bind (mmciSendCmd_ends card fuel _ _ s) ?_ ?_)
      · rintro t ⟨p, rfl⟩
        exact quiet_of_announcing hannounced
      rintro _ t ⟨p, rfl, hp⟩
      refine .bind_ok (readResponse_after card s _ _ p) ?_
      by_cases haccepted : card.response (s.sent.length + 1) &&& bit 5 ≠ 0
      · rw [if_pos haccepted]
        refine .bind (mmciSendCmd_ends card fuel _ _ _) ?_ ?_
        · rintro t ⟨q, rfl⟩
          exact quiet_snoc_acmd41 hannounced
        rintro _ t ⟨q, rfl, hq⟩
        exact .of_ok rfl ⟨0, Nat.succ_pos count, ⟨haccepted, fun j hj => absurd hj (Nat.not_lt_zero j)⟩, rfl, rfl,
          p, hp, q, hq, rfl⟩
      · rw [if_neg haccepted]
        refine .mono (ih hannounced) (fun _ => id) fun accepted t => ?_
        cases accepted with
        | false => exact id
        | true =>
            rintro ⟨i, hi, hsent⟩
            exact ⟨i + 1, Nat.succ_lt_succ hi, hsent.after hp haccepted⟩

/-- What the first part has done where it goes on. -/
structure Opened (card : Card) (s t : Driver) (i : Nat) : Prop where
  first : FirstAccepted card 2 i
  count : i < 5
  echo : card.response 2 ||| 0x1AA = 0x1AA
  sent : t.sent = opening s.mmciSdCard i
  same : t.mmciSdCard = s.mmciSdCard
  ends : CommandsEnd card (opening s.mmciSdCard i) s.polls t.polls

theorem openCard_ends (card : Card) (fuel : Nat) (hs : s.sent = []) :
    Ends (openCard card fuel) s (fun t => Quiet t.sent) fun opened t => match opened with
      | none => Quiet t.sent
      | some isHC => ∃ i, Opened card s t i ∧ isHC = asBool (card.response (i + 4) &&& bit 30) := by
  have hidle : ∀ c ∈ s.sent ++ [(0 ||| EXE, 0)], number c ∈ [0, 8, 55] := by
    intro c hc
    rw [hs] at hc
    obtain rfl := List.mem_singleton.mp hc
    decide
  have hvoltage : ∀ c ∈ s.sent ++ [(0 ||| EXE, 0)] ++ [(8 ||| EXE ||| RESP, 0x1AA)], number c ∈ [0, 8, 55] :=
    announcing_snoc hidle (by decide)
  refine .bind (mmciSendCmd_ends card fuel _ _ s) ?_ ?_
  · rintro t ⟨p, rfl⟩
    exact quiet_of_announcing hidle
  rintro _ t ⟨p, rfl, hp⟩
  refine .bind (mmciSendCmd_ends card fuel _ _ _) ?_ ?_
  · rintro t ⟨q, rfl⟩
    exact quiet_of_announcing hvoltage
  rintro _ t ⟨q, rfl, hq⟩
  refine .bind_ok (readResponse_after card _ _ _ q) ?_
  have hlength : (s.after (0 ||| EXE) 0 p).sent.length + 1 = 2 := by
    rw [Driver.after, hs]
    rfl
  rw [hlength]
  by_cases hecho : card.response 2 ||| 0x1AA ≠ 0x1AA
  · rw [if_pos hecho]
    exact .of_ok rfl (quiet_of_announcing hvoltage)
  rw [if_neg hecho]
  refine .bind (mmciSendAppCmd_ends card fuel 5 hvoltage) (fun _ => id) ?_
  rintro accepted t haccepted
  cases accepted with
  | false => exact .of_ok rfl haccepted
  | true =>
      obtain ⟨i, hi, hsent⟩ := haccepted
      have hopened : Opened card s t i := by
        refine ⟨?_, hi, not_not.mp hecho, ?_, hsent.same, p, hp, q, hq, hsent.ends⟩
        · have hfirst := hsent.first
          have hsecond : ((s.after (0 ||| EXE) 0 p).after (8 ||| EXE ||| RESP) 0x1AA q).sent.length = 2 := by
            rw [Driver.after, Driver.after, hs]
            rfl
          rwa [hsecond] at hfirst
        · rw [hsent.sent, Driver.after, Driver.after, hs]
          rfl
      refine .bind_ok (a := card.response t.sent.length) rfl (.of_ok rfl ⟨i, hopened, ?_⟩)
      rw [hopened.sent, opening, List.length_append, length_announcement]
      rfl

end Opening

section Closing

variable {card : Card} {s t : Driver} {isHC : Bool}

/-- The commands of the second part, where so many commands were sent before. -/
def closing (card : Card) (n : Nat) : List (U32 × U32) :=
  [(2 ||| EXE ||| LRESP, 0), (3 ||| EXE ||| RESP, 0), (7 ||| EXE ||| RESP, card.response (n + 2) &&& 0xFFFF0000),
    (16 ||| EXE ||| RESP, 512)]

/-- So many of these commands were sent, and the card is known where CMD7 is one of them. -/
def Closed (card : Card) (t u : Driver) (isHC : Bool) (k : Nat) : Prop :=
  u.sent = t.sent ++ (closing card t.sent.length).take k ∧ (2 < k → u.mmciSdCard.map SdCard.ishc = some isHC)

theorem or_bit_ne_zero (x : U32) : x ||| bit 31 ≠ 0 := by
  intro h
  have hhigh := congrArg (fun y => BitVec.getLsbD y 31) h
  simp [bit] at hhigh

/-- The loop that is to wait for the card never waits. -/
theorem waitReady_ready (card : Card) (fuel : Nat) (t : Driver) : (waitReady card (fuel + 1)).run t = .ok () t :=
  congrFun (if_neg (or_bit_ne_zero _)) t

theorem malloc_ends (card : Card) (t : Driver) : Ends (malloc card) t (fun u => u = t) fun _ u => u = t := by
  rw [malloc]
  split
  · exact .of_error rfl rfl
  · exact .of_ok rfl rfl

theorem selectCard_ends (card : Card) (fuel : Nat) (t : Driver) (isHC : Bool) :
    Ends (selectCard card (fuel + 1) isHC) t (fun u => ∃ k, 0 < k ∧ Closed card t u isHC k)
      fun _ u => ∃ k, 0 < k ∧ Closed card t u isHC k := by
  have hnone : ∀ {k : Nat} {o : Option Bool}, k ≤ 2 → 2 < k → o = some isHC :=
    fun hle hlt => absurd hlt (not_lt_of_ge hle)
  refine .bind_ok (waitReady_ready card fuel t) (.bind (mmciSendCmd_ends card _ _ _ t) ?_ ?_)
  · rintro u ⟨p, rfl⟩
    exact ⟨1, by decide, rfl, hnone (by decide)⟩
  rintro _ u ⟨p, rfl, -⟩
  refine .bind (mmciSendCmd_ends card _ _ _ _) ?_ ?_
  · rintro u ⟨q, rfl⟩
    exact ⟨2, by decide, List.append_assoc _ _ _, hnone (by decide)⟩
  rintro _ u ⟨q, rfl, -⟩
  have hresponse := readResponse_after card (t.after (2 ||| EXE ||| LRESP) 0 p) (3 ||| EXE ||| RESP) 0 q
  rw [show (t.after (2 ||| EXE ||| LRESP) 0 p).sent.length + 1 = t.sent.length + 2 from
    congrArg (· + 1) List.length_append] at hresponse
  refine .bind_ok hresponse (.bind (malloc_ends card _) ?_ ?_)
  · rintro u rfl
    exact ⟨2, by decide, List.append_assoc _ _ _, hnone (by decide)⟩
  rintro _ u rfl
  refine .bind_ok rfl (.bind (mmciSendCmd_ends card _ _ _ _) ?_ ?_)
  · rintro u ⟨r, rfl⟩
    refine ⟨3, by decide, ?_, fun _ => rfl⟩
    simp [Driver.after, closing]
  rintro _ u ⟨r, hu, -⟩
  have hsent : u.sent = t.sent ++ (closing card t.sent.length).take 3 := by
    rw [hu]
    simp [Driver.after, closing]
  have hcard : u.mmciSdCard.map SdCard.ishc = some isHC := by
    rw [hu]
    rfl
  have hlast : ∀ q', ∃ k, 0 < k ∧ Closed card t (u.after (16 ||| EXE ||| RESP) 512 q') isHC k := by
    refine fun q' => ⟨4, by decide, ?_, fun _ => hcard⟩
    rw [Driver.after, hsent, List.append_assoc]
    rfl
  refine .bind (mmciSendCmd_ends card _ _ _ _) ?_ ?_
  · rintro u ⟨q', rfl⟩
    exact hlast q'
  rintro _ u ⟨q', rfl, -⟩
  refine .mono (malloc_ends card _) ?_ ?_
  · rintro u rfl
    exact hlast q'
  · rintro _ u rfl
    exact hlast q'

end Closing

section Runs

variable {card : Card} {s : Driver}

/-- The driver has opened the card and goes on with the second part. -/
def Selects (card : Card) (s d : Driver) (i k : Nat) : Prop :=
  ∃ t isHC, Opened card s t i ∧ isHC = asBool (card.response (i + 4) &&& bit 30) ∧ Closed card t d isHC k

/-- Whatever the bound: the card is being opened, or was turned away, or the second part
is reached. -/
theorem pl181GetBlockDevice_final (card : Card) (fuel : Nat) (hs : s.sent = []) :
    Quiet (final ((pl181GetBlockDevice card fuel).run s)).sent ∨
      ∃ i k, Selects card s (final ((pl181GetBlockDevice card fuel).run s)) i k := by
  refine (ends_iff_final fun d => Quiet d.sent ∨ ∃ i k, Selects card s d i k).mp ?_
  refine .bind (openCard_ends card fuel hs) (fun _ => .inl) ?_
  rintro opened t hopened
  cases opened with
  | none => exact .of_ok rfl (.inl hopened)
  | some isHC =>
      obtain ⟨i, hopened, hcapacity⟩ := hopened
      have hselects : ∀ u k, Closed card t u isHC k → Selects card s u i k :=
        fun u k hclosed => ⟨t, isHC, hopened, hcapacity, hclosed⟩
      cases fuel with
      | zero =>
          have hstop : Ends (selectCard card 0 isHC) t (fun u => u = t) fun _ _ => False := .of_error rfl rfl
          refine hstop.bind ?_ ?_
          · rintro u rfl
            exact .inr ⟨i, 0, hselects _ 0 ⟨(List.append_nil _).symm, fun h => absurd h (by decide)⟩⟩
          · exact fun _ _ => False.elim
      | succ fuel =>
          refine .bind (selectCard_ends card fuel t isHC) ?_ ?_
          · rintro u ⟨k, -, hclosed⟩
            exact .inr ⟨i, k, hselects u k hclosed⟩
          · rintro _ u ⟨k, -, hclosed⟩
            exact .of_ok rfl (.inr ⟨i, k, hselects u k hclosed⟩)

theorem mmciSendAppCmd_round {count q : Nat} {t : Driver} {b : Bool}
    (hq : CommandEnds card (cmd55 s.mmciSdCard).1 s.polls q)
    (hrest : Settles (fun fuel => if card.response (s.sent.length + 1) &&& bit 5 ≠ 0 then do
        mmciSendCmd card fuel acmd41.1 acmd41.2
        return true
      else mmciSendAppCmd card fuel acmd41.1 acmd41.2 count)
      (s.after (cmd55 s.mmciSdCard).1 (cmd55 s.mmciSdCard).2 q) b t) :
    Settles (fun fuel => mmciSendAppCmd card fuel acmd41.1 acmd41.2 (count + 1)) s b t := by
  refine .bind (a := s) (t := s) (.of_eq fun _ => rfl) (.bind (mmciSendCmd_settles hq _) ?_)
  exact .bind (.of_eq fun _ => readResponse_after card s _ _ q) hrest

theorem mmciSendAppCmd_settles {i count p : Nat} (hfirst : FirstAccepted card s.sent.length i) (hi : i < count)
    (hends : CommandsEnd card (List.replicate (i + 1) (cmd55 s.mmciSdCard) ++ [acmd41]) s.polls p) :
    ∃ t : Driver, t.sent = s.sent ++ List.replicate (i + 1) (cmd55 s.mmciSdCard) ++ [acmd41] ∧
      Settles (fun fuel => mmciSendAppCmd card fuel acmd41.1 acmd41.2 count) s true t := by
  obtain ⟨count, rfl⟩ := Nat.exists_eq_succ_of_ne_zero (Nat.ne_zero_of_lt hi)
  induction i generalizing s count with
  | zero =>
      obtain ⟨q, hq, r, hr, rfl⟩ := hends
      refine ⟨(s.after (cmd55 s.mmciSdCard).1 (cmd55 s.mmciSdCard).2 q).after acmd41.1 acmd41.2 r, rfl,
        mmciSendAppCmd_round hq ?_⟩
      simp only [if_pos (show card.response (s.sent.length + 1) &&& bit 5 ≠ 0 from hfirst.1)]
      exact .bind (mmciSendCmd_settles hr _) (.of_eq fun _ => rfl)
  | succ i ih =>
      obtain ⟨q, hq, hrest⟩ := hends
      obtain ⟨count, rfl⟩ := Nat.exists_eq_succ_of_ne_zero (by omega : count ≠ 0)
      have hnot : ¬ card.response (s.sent.length + 1) &&& bit 5 ≠ 0 := hfirst.2 0 (Nat.succ_pos i)
      have hlength : (s.after (cmd55 s.mmciSdCard).1 (cmd55 s.mmciSdCard).2 q).sent.length = s.sent.length + 1 :=
        List.length_append
      obtain ⟨t, hsent, hsettles⟩ := ih (s := s.after (cmd55 s.mmciSdCard).1 (cmd55 s.mmciSdCard).2 q)
        (hlength ▸ hfirst.next) hrest count (by omega)
      refine ⟨t, ?_, mmciSendAppCmd_round hq ?_⟩
      · rw [hsent, List.replicate_succ (n := i + 1), List.append_cons s.sent]
        rfl
      · simp only [if_neg hnot]
        exact hsettles

theorem openCard_settles {i p : Nat} (hs : s.sent = []) (hecho : card.response 2 ||| 0x1AA = 0x1AA)
    (hfirst : FirstAccepted card 2 i) (hi : i < 5) (hends : CommandsEnd card (opening s.mmciSdCard i) s.polls p) :
    ∃ (t : Driver) (isHC : Bool), t.sent = opening s.mmciSdCard i ∧ Settles (openCard card) s (some isHC) t := by
  obtain ⟨q, hq, r, hr, hrest⟩ := hends
  have hone : (s.after (0 ||| EXE) 0 q).sent.length + 1 = 2 := by
    rw [Driver.after, hs]
    rfl
  have hlength : ((s.after (0 ||| EXE) 0 q).after (8 ||| EXE ||| RESP) 0x1AA r).sent.length = 2 := by
    rw [Driver.after, Driver.after, hs]
    rfl
  obtain ⟨t, hsent, hsettles⟩ := mmciSendAppCmd_settles (hlength ▸ hfirst) hi hrest
  have hopening : t.sent = opening s.mmciSdCard i := by
    rw [hsent, Driver.after, Driver.after, hs]
    rfl
  have hresponse := readResponse_after card (s.after (0 ||| EXE) 0 q) (8 ||| EXE ||| RESP) 0x1AA r
  rw [hone] at hresponse
  refine ⟨t, asBool (card.response t.sent.length &&& bit 30), hopening, ?_⟩
  refine .bind (mmciSendCmd_settles hq 0) (.bind (mmciSendCmd_settles hr 0x1AA) (.bind (.of_eq fun _ => hresponse) ?_))
  simp only [if_neg (not_not_intro hecho)]
  exact .bind hsettles (.of_eq fun _ => rfl)

theorem sends_cmd2 {i p : Nat} (hs : s.sent = []) (hecho : card.response 2 ||| 0x1AA = 0x1AA)
    (hfirst : FirstAccepted card 2 i) (hi : i < 5) (hends : CommandsEnd card (opening s.mmciSdCard i) s.polls p) :
    ∃ fuel, opening s.mmciSdCard i ++ [(2 ||| EXE ||| LRESP, 0)] <+:
      (final ((pl181GetBlockDevice card fuel).run s)).sent := by
  obtain ⟨t, isHC, hsent, n, hn⟩ := openCard_settles hs hecho hfirst hi hends
  refine ⟨n + 1, ?_⟩
  have hclosed : ∀ u k, 0 < k → Closed card t u isHC k →
      opening s.mmciSdCard i ++ [(2 ||| EXE ||| LRESP, 0)] <+: u.sent := by
    rintro u k hk ⟨hu, -⟩
    obtain ⟨k, rfl⟩ := Nat.exists_eq_succ_of_ne_zero hk.ne'
    rw [hu, hsent, List.prefix_append_right_inj]
    exact List.prefix_append [(2 ||| EXE ||| LRESP, 0)] _
  refine (ends_iff_final fun u : Driver => _ <+: u.sent).mp ?_
  refine .bind_ok (hn (n + 1) (Nat.le_succ n)) (.bind (selectCard_ends card n t isHC) ?_ ?_)
  · rintro u ⟨k, hk, hu⟩
    exact hclosed u k hk hu
  · rintro _ u ⟨k, hk, hu⟩
    exact .of_ok rfl (hclosed u k hk hu)

end Runs

end MetalNes.SdCommands
