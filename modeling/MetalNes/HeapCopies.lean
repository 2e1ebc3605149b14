import MetalNes.Liballoc

namespace MetalNes.Liballoc

open ByteWords

section Memset

variable {mem : Bytes} {s n : U32} {c : U8}

theorem toNat_add_ofNat {i : Nat} (h : s.toNat + i < 2 ^ 32) : (s + BitVec.ofNat 32 i).toNat = s.toNat + i := by
  rw [BitVec.toNat_add, BitVec.toNat_ofNat, Nat.mod_eq_of_lt (by omega : i < 2 ^ 32), Nat.mod_eq_of_lt h]

theorem memset_range (mem : Bytes) (c : U8) {k : Nat} (h : s.toNat + k ≤ 2 ^ 32) (a : Nat) :
    (List.range k).foldl (fun mem i => Function.update mem (s + BitVec.ofNat 32 i).toNat c) mem a =
      if s.toNat ≤ a ∧ a < s.toNat + k then c else mem a := by
  induction k with
  | zero => exact (if_neg (by omega)).symm
  | succ k ih =>
      have ih := ih (by omega)
      rw [List.range_succ, List.foldl_append, List.foldl_cons, List.foldl_nil, toNat_add_ofNat (by omega)]
      by_cases ha : a = s.toNat + k
      · rw [ha, Function.update_self, if_pos (by omega)]
      · rw [Function.update_of_ne ha, ih]
        congr 1
        rw [eq_iff_iff]
        omega

theorem memset_apply (mem : Bytes) (c : U8) (h : s.toNat + n.toNat ≤ 2 ^ 32) (a : Nat) :
    liballocMemset mem s c n a = if s.toNat ≤ a ∧ a < s.toNat + n.toNat then c else mem a :=
  memset_range mem c h a

end Memset

section Memcpy

/-- A copy from the front reads every byte before it writes it where the destination
is below the source, or apart from it. -/
def Forward (dest src n : Nat) : Prop := dest ≤ src ∨ src + n ≤ dest

def moved (mem : Bytes) (dest src n : Nat) : Bytes := fun a =>
  if dest ≤ a ∧ a < dest + n then mem (src + (a - dest)) else mem a

variable {mem mem' : Bytes} {dest src n k : Nat}

theorem moved_moved (h : Forward dest src (k + n)) :
    moved (moved mem dest src k) (dest + k) (src + k) n = moved mem dest src (k + n) := by
  funext a
  unfold Forward at h
  simp only [moved]
  by_cases hlate : dest + k ≤ a ∧ a < dest + k + n
  · have hpos : src + k + (a - (dest + k)) = src + (a - dest) := by omega
    rw [if_pos hlate, if_neg (by omega), if_pos (by omega), hpos]
  · rw [if_neg hlate]
    by_cases hearly : dest ≤ a ∧ a < dest + k
    · rw [if_pos hearly, if_pos (by omega)]
    · rw [if_neg hearly, if_neg (by omega)]

theorem store_load_eq_moved : store mem dest (load mem src) = moved mem dest src 4 := by
  funext a
  by_cases ha : dest ≤ a ∧ a < dest + 4
  · rw [store_load_inside ha.1 ha.2, moved, if_pos ha]
  · rw [store_outside (by omega), moved, if_neg ha]

theorem update_eq_moved : Function.update mem dest (mem src) = moved mem dest src 1 := by
  funext a
  by_cases ha : a = dest
  · rw [ha, Function.update_self, moved, if_pos (by omega), Nat.sub_self, Nat.add_zero]
  · rw [Function.update_of_ne ha, moved, if_neg (by omega)]

theorem copyBytes_eq {cdest csrc : U32} (hdest : cdest.toNat + n ≤ 2 ^ 32) (hsrc : csrc.toNat + n ≤ 2 ^ 32)
    (h : Forward cdest.toNat csrc.toNat n) : copyBytes mem cdest csrc n = moved mem cdest.toNat csrc.toNat n := by
  induction n generalizing mem cdest csrc with
  | zero =>
      funext a
      exact (if_neg (by omega)).symm
  | succ n ih =>
      rw [copyBytes, update_eq_moved]
      by_cases hlast : n = 0
      · rw [hlast]
        rfl
      · have hd : (cdest + 1).toNat = cdest.toNat + 1 := by bv_omega
        have hs : (csrc + 1).toNat = csrc.toNat + 1 := by bv_omega
        unfold Forward at h
        rw [ih (by omega) (by omega) (by unfold Forward; omega), hd, hs, moved_moved (by unfold Forward; omega),
          Nat.add_comm 1 n]

theorem copy_eq {ldest lsrc : U32} (hdest : ldest.toNat + n ≤ 2 ^ 32) (hsrc : lsrc.toNat + n ≤ 2 ^ 32)
    (h : Forward ldest.toNat lsrc.toNat n) :
    copyBytes (copyWords mem ldest lsrc n).1 (copyWords mem ldest lsrc n).2.1 (copyWords mem ldest lsrc n).2.2.1
      (copyWords mem ldest lsrc n).2.2.2 = moved mem ldest.toNat lsrc.toNat n := by
  induction n using Nat.strongRecOn generalizing mem ldest lsrc with
  | ind n ih =>
      by_cases hword : 4 ≤ n
      · obtain ⟨k, rfl⟩ := Nat.exists_eq_add_of_le' hword
        rw [copyWords, store_load_eq_moved]
        by_cases hlast : k = 0
        · rw [hlast]
          rfl
        · have hd : (ldest + 4).toNat = ldest.toNat + 4 := by bv_omega
          have hs : (lsrc + 4).toNat = lsrc.toNat + 4 := by bv_omega
          unfold Forward at h
          rw [ih k (by omega) (by omega) (by omega) (by unfold Forward; omega), hd, hs,
            moved_moved (by unfold Forward; omega), Nat.add_comm 4 k]
      · have hfew : copyWords mem ldest lsrc n = (mem, ldest, lsrc, n) := by
          rw [copyWords]
          intro k hk
          omega
        rw [hfew]
        exact copyBytes_eq hdest hsrc h

/-- The copy by words and then by bytes is the copy of all bytes. -/
theorem memcpy_eq {s1 s2 n : U32} (hdest : s1.toNat + n.toNat ≤ 2 ^ 32) (hsrc : s2.toNat + n.toNat ≤ 2 ^ 32)
    (h : Forward s1.toNat s2.toNat n.toNat) :
    liballocMemcpy mem s1 s2 n = moved mem s1.toNat s2.toNat n.toNat := copy_eq hdest hsrc h

end Memcpy

end MetalNes.Liballoc
