import MetalNes.Liballoc

namespace MetalNes.Liballoc

open ByteWords Loop
open PageChunks (NULL)

/-- The members of all tags, without the bytes that hold them. -/
abbrev Fields := U32 → Field → U32

def Fields.set (F : Fields) (tag : U32) (f : Field) (v : U32) : Fields := fun t g =>
  if t = tag ∧ g = f then v else F t g

@[simp] theorem Fields.set_apply (F : Fields) (tag t : U32) (f g : Field) (v : U32) :
    F.set tag f v t g = if t = tag ∧ g = f then v else F t g := rfl

/-- A member of the tag that a link leads to is set, unless the link is NULL. -/
def Fields.setBehind (F : Fields) (tag : U32) (link f : Field) (v : U32) : Fields :=
  if F tag link ≠ NULL then F.set (F tag link) f v else F

@[simp] theorem Fields.setBehind_apply (F : Fields) (tag t : U32) (link f g : Field) (v : U32) :
    F.setBehind tag link f v t g = if F tag link ≠ NULL ∧ t = F tag link ∧ g = f then v else F t g := by
  by_cases hne : F tag link = NULL <;> simp [Fields.setBehind, hne]

def Apart (tags : List U32) : Prop :=
  ∀ t ∈ tags, ∀ u ∈ tags, t ≠ u → t.toNat + 32 ≤ u.toNat ∨ u.toNat + 32 ≤ t.toNat

/-- The members of the tags are F, and no byte outside the tags was written. -/
structure Wrote (tags : List U32) (mem mem' : Bytes) (F : Fields) : Prop where
  fields : ∀ t ∈ tags, ∀ f, get mem' t f = F t f
  outside : ∀ a, (∀ t ∈ tags, a < t.toNat ∨ t.toNat + 32 ≤ a) → mem' a = mem a

theorem Field.offset_le (f : Field) : f.offset + 4 ≤ 32 := by
  cases f <;> decide

theorem Field.offset_apart {f g : Field} (h : f ≠ g) : f.offset + 4 ≤ g.offset ∨ g.offset + 4 ≤ f.offset := by
  cases f <;> cases g <;> first | exact absurd rfl h | decide

section Wrote

variable {tags : List U32} {mem mem' : Bytes} {F : Fields} {t u : U32} {f : Field}

theorem Wrote.refl (tags : List U32) (mem : Bytes) : Wrote tags mem mem (get mem) :=
  ⟨fun _ _ _ => rfl, fun _ _ => rfl⟩

theorem Wrote.set (h : Wrote tags mem mem' F) (hapart : Apart tags) (ht : t ∈ tags) (f : Field) (v : U32) :
    Wrote tags mem (set mem' t f v) (F.set t f v) := by
  constructor
  · intro u hu g
    rw [Fields.set]
    by_cases hut : u = t
    · by_cases hgf : g = f
      · rw [if_pos ⟨hut, hgf⟩, hut, hgf]
        exact load_store mem' _ v
      · rw [if_neg fun hboth => hgf hboth.2, ← h.fields u hu g, hut]
        have hoffset := Field.offset_apart (Ne.symm hgf)
        exact load_store_apart (by omega) v
    · rw [if_neg fun hboth => hut hboth.1, ← h.fields u hu g]
      have hf := f.offset_le
      have hg := g.offset_le
      have hut := hapart t ht u hu (Ne.symm hut)
      exact load_store_apart (by omega) v
  · intro a ha
    rw [← h.outside a ha]
    have hf := f.offset_le
    have hat := ha t ht
    exact store_outside (by omega) v

theorem Wrote.set_eq (h : Wrote tags mem mem' F) (hapart : Apart tags) (ht : t ∈ tags) (f : Field) {v w : U32}
    (hv : v = w) : Wrote tags mem (Liballoc.set mem' t f v) (F.set t f w) := by
  rw [hv]
  exact h.set hapart ht f w

theorem Wrote.copy (h : Wrote tags mem mem' F) (hapart : Apart tags) (ht : t ∈ tags) (hu : u ∈ tags) (f g : Field) :
    Wrote tags mem (Liballoc.set mem' t f (get mem' u g)) (F.set t f (F u g)) :=
  h.set_eq hapart ht f (h.fields u hu g)

theorem Wrote.setBehind (h : Wrote tags mem mem' F) (hapart : Apart tags) (hu : u ∈ tags) (g : Field)
    (hlink : F u g ≠ NULL → F u g ∈ tags) (f : Field) {v w : U32} (hv : v = w) :
    Wrote tags mem (if get mem' u g ≠ NULL then Liballoc.set mem' (get mem' u g) f v else mem')
      (F.setBehind u g f w) := by
  rw [h.fields u hu g, hv, Fields.setBehind]
  by_cases hne : F u g ≠ NULL
  · rw [if_pos hne, if_pos hne]
    exact h.set hapart (hlink hne) f w
  · rw [if_neg hne, if_neg hne]
    exact h

end Wrote

/-- remove_tag on the members alone. -/
def Fields.removeTag (F : Fields) (tag : U32) : Fields :=
  let F := F.setBehind tag .prev .next (F tag .next)
  let F := F.setBehind tag .next .prev (F tag .prev)
  ((F.set tag .next NULL).set tag .prev NULL).set tag .index (-1)

def Fields.insertTag (F : Fields) (tag first : U32) (realIndex : Int) : Fields :=
  let F := F.set tag .index (BitVec.ofInt 32 realIndex)
  if first ≠ NULL then (F.set first .prev tag).set tag .next first else F

/-- What melt_left and absorb_right do to two tags next to each other. -/
def Fields.join (F : Fields) (left right : U32) : Fields :=
  let F := F.set left .realSize (F left .realSize + F right .realSize)
  let F := F.set left .splitRight (F right .splitRight)
  F.setBehind right .splitRight .splitLeft left

def Fields.linkNewTag (F : Fields) (tag newTag remainder : U32) : Fields :=
  let F := (F.set newTag .magic LIBALLOC_MAGIC).set newTag .realSize remainder
  let F := (F.set newTag .next NULL).set newTag .prev NULL
  let F := F.set newTag .splitLeft tag
  let F := F.set newTag .splitRight (F tag .splitRight)
  let F := F.setBehind newTag .splitRight .splitLeft newTag
  let F := F.set tag .splitRight newTag
  F.set tag .realSize (F tag .realSize - F newTag .realSize)

def Fields.freshTag (F : Fields) (tag size pages : U32) : Fields :=
  let F := (F.set tag .magic LIBALLOC_MAGIC).set tag .size size
  let F := (F.set tag .realSize (pages * pageSize)).set tag .index (-1)
  let F := (F.set tag .next NULL).set tag .prev NULL
  (F.set tag .splitLeft NULL).set tag .splitRight NULL

section Calls

variable {σ : Type} {tags : List U32} {mem mem' : Bytes} {F : Fields} {h : Heap σ} {tag : U32}

theorem removeTag_wrote (hw : Wrote tags mem h.mem F) (hapart : Apart tags) (ht : tag ∈ tags)
    (hprev : F tag .prev ≠ NULL → F tag .prev ∈ tags) (hnext : F tag .next ≠ NULL → F tag .next ∈ tags) :
    Wrote tags mem (removeTag h tag).mem (F.removeTag tag) := by
  have hforth := hw.setBehind hapart ht .prev hprev .next (hw.fields tag ht .next)
  have hkeep : F.setBehind tag .prev .next (F tag .next) tag .next = F tag .next := by
    rw [Fields.setBehind_apply, ite_eq_right_iff]
    exact fun _ => rfl
  rw [← hkeep] at hnext
  have hback := hforth.setBehind hapart ht .next hnext .prev (hforth.fields tag ht .prev)
  exact ((hback.set hapart ht .next NULL).set hapart ht .prev NULL).set hapart ht .index (-1)

theorem insertTag_wrote (hw : Wrote tags mem h.mem F) (hapart : Apart tags) (ht : tag ∈ tags) {index i : Int}
    (hi : (if index < 0 then bucketOf (F tag .realSize - sizeofTag) else index) = i)
    (hfirst : h.freePages i ≠ NULL → h.freePages i ∈ tags) :
    Wrote tags mem (insertTag h tag index).mem (F.insertTag tag (h.freePages i) i) ∧
      (insertTag h tag index).freePages = Function.update h.freePages i tag := by
  have hset := hw.set hapart ht .index (BitVec.ofInt 32 i)
  simp only [insertTag, Fields.insertTag]
  rw [hw.fields tag ht, hi]
  refine ⟨?_, rfl⟩
  by_cases hne : h.freePages i ≠ NULL
  · rw [if_pos hne, if_pos hne]
    exact (hset.set hapart (hfirst hne) .prev tag).set hapart ht .next _
  · rw [if_neg hne, if_neg hne]
    exact hset

theorem meltLeft_wrote (hw : Wrote tags mem mem' F) (hapart : Apart tags) (ht : tag ∈ tags)
    (hleft : F tag .splitLeft ∈ tags) (hne : tag ≠ F tag .splitLeft)
    (hright : F tag .splitRight ≠ NULL → F tag .splitRight ∈ tags) :
    Wrote tags mem (meltLeft mem' tag).1 (F.join (F tag .splitLeft) tag) ∧
      (meltLeft mem' tag).2 = F tag .splitLeft := by
  have hcall := hw.fields tag ht .splitLeft
  simp only [meltLeft, hcall, and_true]
  have hsize := hw.set_eq hapart hleft .realSize
    (congrArg₂ (· + ·) (hw.fields _ hleft .realSize) (hw.fields tag ht .realSize))
  have hlink := hsize.copy hapart hleft ht .splitRight .splitRight
  exact hlink.setBehind hapart ht .splitRight (by simpa [hne] using hright) .splitLeft rfl

theorem absorbRight_wrote (hw : Wrote tags mem h.mem F) (hapart : Apart tags) (ht : tag ∈ tags) {right : U32}
    (heq : F tag .splitRight = right) (hright : right ∈ tags) (hne : right ≠ tag)
    (hprev : F right .prev ≠ NULL → F right .prev ∈ tags) (hnext : F right .next ≠ NULL → F right .next ∈ tags)
    (hbehind : (F.removeTag right) right .splitRight ≠ NULL → (F.removeTag right) right .splitRight ∈ tags) :
    Wrote tags mem (absorbRight h tag).mem ((F.removeTag right).join tag right) := by
  have hremoved := removeTag_wrote hw hapart hright hprev hnext
  have hsize := hremoved.set_eq hapart ht .realSize
    (congrArg₂ (· + ·) (hremoved.fields tag ht .realSize) (hremoved.fields right hright .realSize))
  have hlink := hsize.copy hapart ht hright .splitRight .splitRight
  simp only [absorbRight, hw.fields tag ht, heq]
  exact hlink.setBehind hapart hright .splitRight (by simpa [hne] using hbehind) .splitLeft rfl

theorem linkNewTag_wrote (hw : Wrote tags mem mem' F) (hapart : Apart tags) (ht : tag ∈ tags) {newTag : U32}
    (hn : newTag ∈ tags) (hne : tag ≠ newTag) (hright : F tag .splitRight ≠ NULL → F tag .splitRight ∈ tags)
    (remainder : U32) : Wrote tags mem (linkNewTag mem' tag newTag remainder) (F.linkNewTag tag newTag remainder) := by
  have hsize := (hw.set hapart hn .magic LIBALLOC_MAGIC).set hapart hn .realSize remainder
  have hlinks := ((hsize.set hapart hn .next NULL).set hapart hn .prev NULL).set hapart hn .splitLeft tag
  have hright' := hlinks.copy hapart hn ht .splitRight .splitRight
  have hback := hright'.setBehind hapart hn .splitRight (by simpa [hne] using hright) .splitLeft
    (rfl : newTag = newTag)
  have hforth := hback.set hapart ht .splitRight newTag
  exact hforth.set_eq hapart ht .realSize
    (congrArg₂ (· - ·) (hforth.fields tag ht .realSize) (hforth.fields newTag hn .realSize))

theorem freshTag_wrote (hw : Wrote tags mem mem' F) (hapart : Apart tags) (ht : tag ∈ tags) (size pages : U32) :
    Wrote tags mem (freshTag mem' tag size pages) (F.freshTag tag size pages) := by
  have hsize := ((hw.set hapart ht .magic LIBALLOC_MAGIC).set hapart ht .size size).set hapart ht .realSize
    (pages * pageSize)
  have hlinks := ((hsize.set hapart ht .index (-1)).set hapart ht .next NULL).set hapart ht .prev NULL
  exact (hlinks.set hapart ht .splitLeft NULL).set hapart ht .splitRight NULL

end Calls

end MetalNes.Liballoc
