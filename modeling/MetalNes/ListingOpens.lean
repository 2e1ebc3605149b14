import MetalNes.Listings
import MetalNes.PathSplit

namespace MetalNes.ListingOpens

open Loop CStrings Fat32 ClusterChains DirectorySlots FatFiles DirectorySearch DirectoryTree RootSearch Listings

section Paths

theorem names_cons {n : Str} (hne : n ≠ []) (hslash : slash ∉ n) (s : Str) :
    names (n ++ slash :: s) = n :: names s := by
  have hall : ∀ c ∈ n, decide (c ≠ slash) = true := fun c hc => decide_eq_true fun h => hslash (h ▸ hc)
  obtain ⟨rest, hsplit, hrest⟩ := splitOn_slash (n ++ slash :: s)
  have htake : (n ++ slash :: s).takeWhile (· ≠ slash) = n := by
    rw [List.takeWhile_append_of_pos hall, List.takeWhile_cons_of_neg (by simp), List.append_nil]
  have hdrop : (n ++ slash :: s).dropWhile (· ≠ slash) = slash :: s := by
    rw [List.dropWhile_append_of_pos hall, List.dropWhile_cons_of_neg (by simp)]
  rw [htake] at hsplit
  rw [hdrop, List.tail_cons] at hrest
  rw [names, hsplit, List.filter_cons_of_pos (by simpa using hne), hrest]

theorem pathTo_front {front n : Str} (hfront : front ≠ []) : pathTo (front ++ n) n = front := by
  have hne : ¬ front ++ n = n := fun h => hfront (List.append_left_eq_self.mp h)
  rw [pathTo, if_neg hne, List.length_append, Nat.add_sub_cancel, List.take_left]

end Paths

section Directories

variable {fs : MountedFs} {sector : Nat → Vector U8 512} {allocs : Allocs}

theorem openData_directory (hv : Volume fs.toFatFs sector) {c : U32} {slots : List Slot}
    (hdir : Directory fs.toFatFs sector c slots) (hgrants : Grants allocs) (calls : Nat) :
    ∃ bound, ∀ fuel ≥ bound, openData fuel allocs fs calls c = some (.ok (some (dirAt slots 0))) := by
  obtain ⟨bound, size, hsize, hread⟩ := Directory.read hv hdir
  refine ⟨bound, fun fuel hfuel => ?_⟩
  simp only [openData, hread (hgrants calls) fuel hfuel, hsize, dirAt, Nat.zero_mul]

theorem opens_item (hv : Volume fs.toFatFs sector) {root : Listing} (hdots : root.dots = [])
    (hroot : Directory fs.toFatFs sector fs.ebr.clusterRootNum root.slots) (hgrants : Grants allocs) {d : Item}
    (hd : d ∈ root.items) (hdir : d.entry.attr = FAT_DIR_ENT) {sub : Listing}
    (hsub : Directory fs.toFatFs sector d.entry.cluster sub.slots) {path : Str} (hpath : names path = [d.name]) :
    Opens fs allocs path (some (dirAt sub.slots 0)) := by
  obtain ⟨hne, rest, hstrtok, hrest⟩ := strtok_of_names hpath
  have hslots : root.slots = root.items.flatMap Item.slots ++ root.free := by
    rw [Listing.slots, hdots, List.nil_append]
  have hpreceded : Preceded root.slots := hslots ▸ preceded_items root.free_attr root.items
  have hbegins : BeginsWithEntry root.slots := hslots ▸ begins_items hd root.free
  have hsearch : search d.name root.slots = .ok (some (d.long, d.entry)) :=
    hslots ▸ search_item root.distinct hd hdir root.free
  obtain ⟨bound, size, hsize, hread⟩ := Directory.read hv hroot
  obtain ⟨bound', hopen⟩ := openData_directory hv hsub hgrants 1
  refine ⟨max bound (max bound' (root.slots.length + 1)), fun fuel hfuel => ?_⟩
  have hlast : run (opendirBody fuel allocs fs) (root.slots.length + 1)
      (atRoot root.slots size allocs.dirent d.name rest) = some (openData fuel allocs fs 1 d.entry.cluster) :=
    run_last hpreceded d.nameable hbegins hsearch hrest hsize
  rw [hopen fuel (by omega)] at hlast
  simp only [fatOpendir, if_neg hne, hstrtok, hread (hgrants 0) fuel (by omega)]
  exact Option.join_eq_some_iff.mpr (run_mono (by omega) hlast)

end Directories

end MetalNes.ListingOpens
