import MetalNes.RunMoves

namespace MetalNes.Liballoc

open PageChunks (NULL)
open PageRuns (Block)
open Segments Tilings

/-- Memory that malloc has given out. -/
structure Object where
  ptr : U32
  size : U32

def Object.extent (o : Object) : Set Nat := Set.Ico o.ptr.toNat (o.ptr.toNat + o.size.toNat)

def wholeAt (F : Fields) (i : Int) (r : PageRun) : Bool :=
  match r.tags with
  | [t] => F.idx t = i
  | _ => false

def Fields.Free (F : Fields) (t : U32) : Prop := F.idx t ≠ -1

/-- What holds of the tags between calls, and within a call of the tag that it has in hand. -/
structure Sound (F : Fields) (freePages : Int → U32) (completePages : Int → Int) (runs : List PageRun)
    (chain : Int → List U32) (live : List Object) (hand : Option U32) : Prop where
  shape : Shape F freePages runs chain
  graded : ∀ t ∈ allTags runs, F.idx t ≠ -1 → F.idx t = bucketOf (F t .realSize - sizeofTag)
  coalesced : ∀ r ∈ runs, Separated F.Free r.tags
  counted : ∀ i, 0 ≤ i → i < 32 → completePages i = runs.countP (wholeAt F i)
  bounded : ∀ i, 0 ≤ i → i < 32 → completePages i ≤ MAXCOMPLETE
  room : ∀ t ∈ allTags runs, some t ≠ hand → F.idx t = -1 → 32 + (F t .size).toNat ≤ F.len t
  owned : ∀ o, o ∈ live ↔
    ∃ t ∈ allTags runs, some t ≠ hand ∧ F.idx t = -1 ∧ o = ⟨t + sizeofTag, F t .size⟩
  distinct : live.Nodup
  held : ∀ t, hand = some t → t ∈ allTags runs ∧ F.idx t = -1

theorem not_held {P : U32 → Prop} (t : U32) (h : none = some t) : P t := absurd h.symm (Option.some_ne_none t)

section Congr

variable {F F' : Fields} {i : Int} {r : PageRun} {runs : List PageRun}

theorem wholeAt_congr (h : ∀ t ∈ r.tags, F'.idx t = F.idx t) : wholeAt F' i r = wholeAt F i r := by
  rcases r with ⟨b, tags⟩
  cases tags with
  | nil => rfl
  | cons t rest =>
      cases rest with
      | nil => simp [wholeAt, h t List.mem_cons_self]
      | cons u rest => rfl

theorem countP_wholeAt_congr (h : ∀ t ∈ allTags runs, F'.idx t = F.idx t) :
    runs.countP (wholeAt F' i) = runs.countP (wholeAt F i) :=
  List.countP_congr fun r hr => by
    rw [wholeAt_congr fun t ht => h t (mem_allTags.mpr ⟨r, hr, ht⟩)]

theorem wholeAt_long {b : Block} {xs ys : List U32} {a c : U32} : wholeAt F i ⟨b, xs ++ a :: c :: ys⟩ = false := by
  cases xs with
  | nil => rfl
  | cons x rest => cases rest <;> rfl

theorem wholeAt_single {b : Block} {a : U32} (h0 : 0 ≤ i) (ha : F.idx a = -1) : wholeAt F i ⟨b, [a]⟩ = false := by
  have hne : F.idx a ≠ i := by omega
  simp [wholeAt, hne]

theorem wholeAt_used {b : Block} {xs ys : List U32} {a : U32} (h0 : 0 ≤ i) (ha : F.idx a = -1) :
    wholeAt F i ⟨b, xs ++ a :: ys⟩ = false := by
  cases xs with
  | nil =>
      cases ys with
      | nil => exact wholeAt_single h0 ha
      | cons y rest => rfl
  | cons x rest => cases rest <;> rfl

end Congr

section Joins

variable {F F' : Fields} {freePages freePages' : Int → U32} {completePages : Int → Int}
variable {runs pre post : List PageRun} {chain chain' : Int → List U32} {live : List Object} {hand : Option U32}
variable {b : Block} {xs ys : List U32} {t a c : U32}

theorem countP_middle {p q : PageRun → Bool} {r : PageRun} (hsame : ∀ x ∈ pre ++ post, q x = p x) :
    (pre ++ r :: post).countP q = (pre ++ post).countP p + if q r then 1 else 0 := by
  have hpre : pre.countP q = pre.countP p :=
    List.countP_congr fun x hx => by rw [hsame x (List.mem_append_left post hx)]
  have hpost : post.countP q = post.countP p :=
    List.countP_congr fun x hx => by rw [hsame x (List.mem_append_right pre hx)]
  rw [List.countP_append, List.countP_cons, List.countP_append, hpre, hpost, Nat.add_assoc]

theorem coalesced_replace {r r' : PageRun} (h : ∀ x ∈ pre ++ r :: post, Separated F.Free x.tags)
    (hother : ∀ x ∈ pre ++ post, ∀ u ∈ x.tags, F'.idx u = F.idx u) (hnew : Separated F'.Free r'.tags) :
    ∀ x ∈ pre ++ r' :: post, Separated F'.Free x.tags := by
  intro x hx
  rcases mem_inserted.mp hx with rfl | hx
  · exact hnew
  · refine (h x (mem_inserted.mpr (Or.inr hx))).congr fun u hu => ?_
    rw [Fields.Free, hother x hx u hu]
    exact id

/-- A tag that an object is behind. -/
def Fields.Out (F : Fields) (runs : List PageRun) (hand : Option U32) (t : U32) : Prop :=
  t ∈ allTags runs ∧ some t ≠ hand ∧ F.idx t = -1

theorem Sound.same_objects {runs' : List PageRun} {hand' : Option U32}
    (h : Sound F freePages completePages runs chain live hand)
    (hout : ∀ u, F'.Out runs' hand' u ↔ F.Out runs hand u)
    (hsame : ∀ u, F.Out runs hand u → F' u .realSize = F u .realSize ∧ F' u .size = F u .size) :
    (∀ u ∈ allTags runs', some u ≠ hand' → F'.idx u = -1 → 32 + (F' u .size).toNat ≤ F'.len u) ∧
      ∀ o, o ∈ live ↔ ∃ u ∈ allTags runs', some u ≠ hand' ∧ F'.idx u = -1 ∧ o = ⟨u + sizeofTag, F' u .size⟩ := by
  constructor
  · intro u hu hne hidle
    have hold := (hout u).mp ⟨hu, hne, hidle⟩
    rw [Fields.len, (hsame u hold).1, (hsame u hold).2]
    exact h.room u hold.1 hold.2.1 hold.2.2
  · intro o
    rw [h.owned o]
    constructor
    · rintro ⟨u, hu, hne, hidle, rfl⟩
      obtain ⟨hu', hne', hidle'⟩ := (hout u).mpr ⟨hu, hne, hidle⟩
      exact ⟨u, hu', hne', hidle', by rw [(hsame u ⟨hu, hne, hidle⟩).2]⟩
    · rintro ⟨u, hu, hne, hidle, rfl⟩
      have hold := (hout u).mp ⟨hu, hne, hidle⟩
      exact ⟨u, hold.1, hold.2.1, hold.2.2, by rw [(hsame u hold).2]⟩

theorem Shape.congr (h : Shape F freePages runs chain) (hsame : ∀ t ∈ allTags runs, ∀ f, f ≠ .size → F' t f = F t f) :
    Shape F' freePages runs chain where
  run_shape r hr := by
    have hin : ∀ t ∈ r.tags, t ∈ allTags runs := fun t ht => mem_allTags.mpr ⟨r, hr, ht⟩
    refine (h.run_shape r hr).congr (fun t ht => ?_) (fun t ht => hsame t (hin t ht) _ (by decide))
      (fun t ht => hsame t (hin t ht) _ (by decide)) fun t ht => hsame t (hin t ht) _ (by decide)
    rw [Fields.len, hsame t (hin t ht) _ (by decide)]
    rfl
  disjoint := h.disjoint
  buckets := by
    have hidx : ∀ t ∈ allTags runs, F'.idx t = F.idx t := fun t ht => by
      rw [Fields.idx, hsame t ht _ (by decide)]
      rfl
    refine h.buckets.retag (fun t ht _ => ht)
      (fun t ht _ => ⟨hidx t ht, hsame t ht _ (by decide), hsame t ht _ (by decide)⟩) fun t ht hu => ?_
    have hidle := hu.resolve_left (not_not_intro ht)
    rw [hidx t ht, hsame t ht _ (by decide), hsame t ht _ (by decide)]
    exact ⟨hidle, h.buckets.alone t ht hidle⟩

/-- Only the size of the tag in hand may differ. -/
theorem Sound.congr (h : Sound F freePages completePages runs chain live hand)
    (hsame : ∀ t ∈ allTags runs, ∀ f, f ≠ .size → F' t f = F t f)
    (hsize : ∀ t ∈ allTags runs, some t ≠ hand → F' t .size = F t .size) :
    Sound F' freePages completePages runs chain live hand := by
  have hidx : ∀ t ∈ allTags runs, F'.idx t = F.idx t := fun t ht => by
    rw [Fields.idx, hsame t ht _ (by decide)]
    rfl
  have hout : ∀ u, F'.Out runs hand u ↔ F.Out runs hand u := fun u => and_congr_right fun hu => by rw [hidx u hu]
  have hobjects := h.same_objects hout fun u hu => ⟨hsame u hu.1 _ (by decide), hsize u hu.1 hu.2.1⟩
  constructor
  · exact h.shape.congr hsame
  · intro t ht hfree
    rw [hidx t ht] at hfree ⊢
    rw [hsame t ht _ (by decide)]
    exact h.graded t ht hfree
  · intro r hr
    refine (h.coalesced r hr).congr fun t ht => ?_
    rw [Fields.Free, hidx t (mem_allTags.mpr ⟨r, hr, ht⟩)]
    exact id
  · intro i h0 h32
    rw [h.counted i h0 h32, countP_wholeAt_congr hidx]
  · exact h.bounded
  · exact hobjects.1
  · exact hobjects.2
  · exact h.distinct
  · intro t ht
    obtain ⟨hmem, hidle⟩ := h.held t ht
    exact ⟨hmem, (hidx t hmem).trans hidle⟩

/-- Two neighbours become one tag, in hand: one of them was in hand before, the other one was free. -/
theorem Sound.joined
    (h : Sound F freePages completePages (pre ++ ⟨b, xs ++ a :: c :: ys⟩ :: post) chain live (some t))
    (ht : t = a ∨ t = c) (ha : a = t ∨ F.idx a ≠ -1) (hc : c = t ∨ F.idx c ≠ -1)
    (hshape : Shape F' freePages' (pre ++ ⟨b, xs ++ a :: ys⟩ :: post) chain') (hused : F'.idx a = -1)
    (hsame : ∀ u, u ≠ a → u ≠ c → F'.idx u = F.idx u ∧ F' u .realSize = F u .realSize ∧ F' u .size = F u .size) :
    Sound F' freePages' completePages (pre ++ ⟨b, xs ++ a :: ys⟩ :: post) chain' live (some a) := by
  have hrun := h.shape.run_shape _ (List.mem_append_right pre List.mem_cons_self)
  obtain ⟨hca, hcnot, hanot⟩ := nodup_neighbours hrun.links.nodup
  have hmem : ∀ u, u ∈ allTags (pre ++ ⟨b, xs ++ a :: ys⟩ :: post) ↔
      u ∈ allTags (pre ++ ⟨b, xs ++ a :: c :: ys⟩ :: post) ∧ u ≠ c := by
    intro u
    constructor
    · refine fun hu => ⟨(allTags_behind _ _ _ _ _ _ _ _).mpr (Or.inr hu), ?_⟩
      rintro rfl
      rcases (allTags_middle _ _ _ _).mp hu with hu | hu
      · exact hcnot hu
      · obtain ⟨r', hr', hur'⟩ := mem_allTags.mp hu
        exact h.shape.other_run (mem_inserted_behind.mpr (Or.inl rfl)) hr' hur'
    · exact fun ⟨hu, hne⟩ => ((allTags_behind _ _ _ _ _ _ _ _).mp hu).resolve_left hne
  have hother : ∀ r ∈ pre ++ post, ∀ u ∈ r.tags, F'.idx u = F.idx u := by
    intro r hr u hu
    refine (hsame u (fun heq => ?_) fun heq => ?_).1
    · refine h.shape.other_run (r := ⟨b, xs ++ a :: c :: ys⟩) ?_ hr (heq ▸ hu)
      exact List.mem_append_cons_self
    · refine h.shape.other_run (r := ⟨b, xs ++ a :: c :: ys⟩) ?_ hr (heq ▸ hu)
      exact mem_inserted_behind.mpr (Or.inl rfl)
  have hapart : ∀ u, F.Out (pre ++ ⟨b, xs ++ a :: c :: ys⟩ :: post) (some t) u → u ≠ a ∧ u ≠ c := by
    rintro u ⟨-, hne, hidle⟩
    have hut : u ≠ t := fun heq => hne (congrArg some heq)
    exact ⟨fun heq => ha.elim (fun hat => hut (heq.trans hat)) fun hfree => hfree (heq ▸ hidle),
      fun heq => hc.elim (fun hct => hut (heq.trans hct)) fun hfree => hfree (heq ▸ hidle)⟩
  have hout : ∀ u, F'.Out (pre ++ ⟨b, xs ++ a :: ys⟩ :: post) (some a) u ↔
      F.Out (pre ++ ⟨b, xs ++ a :: c :: ys⟩ :: post) (some t) u := by
    intro u
    constructor
    · rintro ⟨hu, hne, hidle⟩
      have hua : u ≠ a := fun heq => hne (congrArg some heq)
      obtain ⟨hold, huc⟩ := (hmem u).mp hu
      refine ⟨hold, fun heq => ?_, (hsame u hua huc).1 ▸ hidle⟩
      have hut := Option.some.inj heq
      exact ht.elim (fun hta => hua (hut.trans hta)) fun htc => huc (hut.trans htc)
    · intro hu
      obtain ⟨hua, huc⟩ := hapart u hu
      exact ⟨(hmem u).mpr ⟨hu.1, huc⟩, fun heq => hua (Option.some.inj heq), (hsame u hua huc).1.trans hu.2.2⟩
  have hobjects := h.same_objects hout fun u hu => (hsame u (hapart u hu).1 (hapart u hu).2).2
  refine ⟨hshape, fun u hu hfree => ?_, coalesced_replace h.coalesced hother ?_, fun i h0 h32 => ?_, h.bounded,
    hobjects.1, hobjects.2, h.distinct, ?_⟩
  · have hua : u ≠ a := fun heq => hfree (heq ▸ hused)
    have hold := (hmem u).mp hu
    rw [(hsame u hua hold.2).1] at hfree ⊢
    rw [(hsame u hua hold.2).2.1]
    exact h.graded u hold.1 hfree
  · refine (h.coalesced _ List.mem_append_cons_self).join (not_not_intro hused) fun u hu => ?_
    rw [Fields.Free, (hsame u (fun heq => hanot (heq ▸ hu)) fun heq => hcnot ?_).1]
    · exact id
    · exact heq ▸ mem_inserted.mpr (Or.inr hu)
  · rw [h.counted i h0 h32, Nat.cast_inj]
    rw [countP_middle fun r hr => wholeAt_congr (hother r hr), countP_middle fun _ _ => rfl, wholeAt_long,
      wholeAt_used h0 hused]
  · rintro u ⟨⟩
    exact ⟨(allTags_middle _ _ _ _).mpr (Or.inl List.mem_append_cons_self), hused⟩

end Joins

end MetalNes.Liballoc
