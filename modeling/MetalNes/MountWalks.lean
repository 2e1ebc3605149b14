import MetalNes.SkipWalks
import MetalNes.Vfs

namespace MetalNes.MountWalks

open Blocks CStrings Loop Vfs SkipWalks

variable {W : Type}

abbrev Mount := Nat × VfsMountNode

/-- The nodes from a pointer on, through next, up to NULL. -/
def Linked (nodes : Nat → Option VfsMountNode) : Option Nat → List Mount → Prop
  | itr, [] => itr = none
  | itr, m :: rest => itr = some m.1 ∧ nodes m.1 = some m.2 ∧ Linked nodes m.2.next rest

/-- The nodes a walk has come to, and the strings it has passed to the open functions of
their systems. -/
structure Trace where
  visited : List Nat
  calls : List (Nat × Str)
  deriving DecidableEq

def Trace.empty : Trace := ⟨[], []⟩

def Trace.visit (t : Trace) (itr : Nat) : Trace := { t with visited := t.visited ++ [itr] }

def Trace.call (t : Trace) (itr : Nat) (subpath : Str) : Trace := { t with calls := t.calls ++ [(itr, subpath)] }

structure Walking (W : Type) where
  itr : Option Nat
  state : VfsState W
  trace : Trace

section Walks

variable (drivers : Nat → FsDriver W)

def opendirBodyLog (path : Str) (slot : Fin 16) (v : Walking W) :
    Iter (Walking W) (Except Fault (Option Nat × VfsState W) × Trace) :=
  match v.itr with
  | none => .done (.ok (none, v.state), v.trace)
  | some itr => match deref v.state.nodes (some itr) with
    | .error e => .done (.error e, v.trace)
    | .ok node =>
        let trace := v.trace.visit itr
        if path.length < node.mountpath.length then
          match deref v.state.nodes node.next with
          | .error e => .done (.error e, trace)
          | .ok skipped => .next ⟨skipped.next, v.state, trace⟩
        else if path = node.mountpath then
          .done (.ok (openDirOn drivers node.vfsDriver [slash] slot v.state), trace.call itr [slash])
        else if node.mountpath <+: path then
          let subpath := path.drop node.mountpath.length
          .done (.ok (openDirOn drivers node.vfsDriver subpath slot v.state), trace.call itr subpath)
        else .next ⟨node.next, v.state, trace⟩

def opendirLog (path : Option Str) (s : VfsState W) (fuel : Nat) :
    Option (Except Fault (Option Nat × VfsState W) × Trace) :=
  match freeDir s, path, s.vfsMfs with
  | some slot, some path, some root => run (opendirBodyLog drivers path slot) fuel ⟨some root, s, .empty⟩
  | _, _, _ => some (.ok (none, s), .empty)

def vfsfopenBodyLog (path : Str) (vfsofindex : Fin 64) (v : Walking W) :
    Iter (Walking W) (Except Fault (Int × VfsState W) × Trace) :=
  match v.itr with
  | none => .done (.ok (-1, v.state), v.trace)
  | some itr => match deref v.state.nodes (some itr) with
    | .error e => .done (.error e, v.trace)
    | .ok node =>
        let trace := v.trace.visit itr
        if path.length < node.mountpath.length then
          match deref v.state.nodes node.next with
          | .error e => .done (.error e, trace)
          | .ok skipped => .next ⟨skipped.next, v.state, trace⟩
        else if path = node.mountpath then .done (.ok (-1, v.state), trace)
        else
          let subpath := path.drop node.mountpath.length
          let (filemeta, world) := (drivers node.vfsDriver).fsopenfile subpath v.state.world
          let trace := trace.call itr subpath
          match filemeta with
          | some m => .done (.ok (vfsofindex.val, { v.state with
              world
              vfsOpenFiles := Function.update v.state.vfsOpenFiles vfsofindex ⟨some m, some node.vfsDriver⟩ }), trace)
          | none => .next ⟨node.next, { v.state with world }, trace⟩

def vfsfopenLog (path : Option Str) (mode : Str) (s : VfsState W) (fuel : Nat) :
    Option (Except Fault (Int × VfsState W) × Trace) :=
  if mode ≠ modeRead then some (.ok (0, s), .empty)
  else match path, s.vfsMfs, freeFile s with
    | some path, some root, some vfsofindex =>
        run (vfsfopenBodyLog drivers path vfsofindex) fuel ⟨some root, s, .empty⟩
    | _, _, _ => some (.ok (-1, s), .empty)

theorem opendirBodyLog_erase (path : Str) (slot : Fin 16) (v : Walking W) :
    opendirBody drivers path slot (v.itr, v.state) =
      (opendirBodyLog drivers path slot v).map (fun v => (v.itr, v.state)) Prod.fst := by
  unfold opendirBody opendirBodyLog
  cases v.itr with
  | none => rfl
  | some itr =>
      simp only
      cases deref v.state.nodes (some itr) with
      | error e => rfl
      | ok node =>
          simp only
          split
          · cases deref v.state.nodes node.next <;> rfl
          · split
            · rfl
            · split <;> rfl

theorem opendirLog_erase (path : Option Str) (s : VfsState W) (fuel : Nat) :
    opendir drivers path s fuel = (opendirLog drivers path s fuel).map Prod.fst := by
  unfold opendir opendirLog
  cases freeDir s with
  | none => rfl
  | some slot =>
      cases path with
      | none => rfl
      | some path =>
          cases s.vfsMfs with
          | none => rfl
          | some root => exact run_map (opendirBodyLog_erase drivers path slot) fuel ⟨some root, s, .empty⟩

theorem vfsfopenBodyLog_erase (path : Str) (vfsofindex : Fin 64) (v : Walking W) :
    vfsfopenBody drivers path vfsofindex (v.itr, v.state) =
      (vfsfopenBodyLog drivers path vfsofindex v).map (fun v => (v.itr, v.state)) Prod.fst := by
  unfold vfsfopenBody vfsfopenBodyLog
  cases v.itr with
  | none => rfl
  | some itr =>
      simp only
      cases deref v.state.nodes (some itr) with
      | error e => rfl
      | ok node =>
          simp only
          split
          · cases deref v.state.nodes node.next <;> rfl
          · split
            · rfl
            · cases ((drivers node.vfsDriver).fsopenfile (path.drop node.mountpath.length) v.state.world).1 <;> rfl

theorem vfsfopenLog_erase (path : Option Str) (mode : Str) (s : VfsState W) (fuel : Nat) :
    vfsfopen drivers path mode s fuel = (vfsfopenLog drivers path mode s fuel).map Prod.fst := by
  unfold vfsfopen vfsfopenLog
  split
  · rfl
  · cases path with
    | none => rfl
    | some path =>
        cases s.vfsMfs with
        | none => rfl
        | some root =>
            cases freeFile s with
            | none => rfl
            | some fd => exact run_map (vfsfopenBodyLog_erase drivers path fd) fuel ⟨some root, s, .empty⟩

end Walks

theorem vfsfopenLog_full {drivers : Nat → FsDriver W} {s : VfsState W} (path : Str) (hfree : freeFile s = none)
    {fuel : Nat} : vfsfopenLog drivers (some path) modeRead s fuel = some (.ok (-1, s), .empty) := by
  unfold vfsfopenLog
  rw [if_neg (not_not.mpr rfl), hfree]
  cases s.vfsMfs <;> rfl

theorem vfsfopenLog_unique {drivers : Nat → FsDriver W} {path : Option Str} {mode : Str} {s : VfsState W} {m n : Nat}
    {q r : Except Fault (Int × VfsState W) × Trace} (hq : vfsfopenLog drivers path mode s m = some q)
    (hr : vfsfopenLog drivers path mode s n = some r) : q = r := by
  unfold vfsfopenLog at hq hr
  by_cases hmode : mode ≠ modeRead
  · rw [if_pos hmode] at hq hr
    exact Option.some.inj (hq.symm.trans hr)
  · rw [if_neg hmode] at hq hr
    cases path with
    | none => exact Option.some.inj (hq.symm.trans hr)
    | some path =>
        cases hroot : s.vfsMfs with
        | none =>
            rw [hroot] at hq hr
            exact Option.some.inj (hq.symm.trans hr)
        | some root =>
            cases hfree : freeFile s with
            | none =>
                rw [hroot, hfree] at hq hr
                exact Option.some.inj (hq.symm.trans hr)
            | some vfsofindex =>
                rw [hroot, hfree] at hq hr
                exact Returns.unique ⟨m, hq⟩ ⟨n, hr⟩

section Lists

variable {nodes : Nat → Option VfsMountNode} {itr : Option Nat} {ms ms' : List Mount}

theorem Linked.unique (h : Linked nodes itr ms) (h' : Linked nodes itr ms') : ms = ms' := by
  induction ms generalizing itr ms' with
  | nil =>
      cases ms' with
      | nil => rfl
      | cons m rest => cases h.symm.trans h'.1
  | cons m rest ih =>
      cases ms' with
      | nil => cases h'.symm.trans h.1
      | cons m' rest' =>
          have haddr : m.1 = m'.1 := Option.some.inj (h.1.symm.trans h'.1)
          have hnode : m.2 = m'.2 := Option.some.inj (h.2.1.symm.trans (haddr ▸ h'.2.1))
          have hrest := h.2.2
          rw [hnode] at hrest
          rw [ih hrest h'.2.2, Prod.ext haddr hnode]

theorem Linked.from (h : Linked nodes itr ms) {m : Mount} (hm : m ∈ ms) :
    ∃ rest, Linked nodes (some m.1) (m :: rest) ∧ rest.length < ms.length := by
  induction ms generalizing itr with
  | nil => cases hm
  | cons k ms ih =>
      rcases List.mem_cons.mp hm with rfl | hm
      · exact ⟨ms, ⟨rfl, h.2⟩, Nat.lt_succ_self _⟩
      · obtain ⟨rest, hrest, hlen⟩ := ih h.2.2 hm
        exact ⟨rest, hrest, Nat.lt_succ_of_lt hlen⟩

theorem Linked.nodup (h : Linked nodes itr ms) : (ms.map Prod.fst).Nodup := by
  induction ms generalizing itr with
  | nil => exact List.nodup_nil
  | cons m ms ih =>
      rw [List.map_cons, List.nodup_cons]
      refine ⟨fun hmem => ?_, ih h.2.2⟩
      obtain ⟨k, hk, haddr⟩ := List.mem_map.mp hmem
      obtain ⟨rest, hrest, hlen⟩ := Linked.from h.2.2 hk
      rw [haddr, ← h.1] at hrest
      rw [(List.cons.inj (h.unique hrest)).2] at hlen
      exact lt_irrefl _ hlen

end Lists

section Passes

variable (drivers : Nat → FsDriver W) (path : Str)

def opendirPass (m : Mount) (_ : Unit) : Pass Unit :=
  if path.length < m.2.mountpath.length then .skip
  else if m.2.mountpath <+: path then .stop
  else .pass ()

/-- What vfsfopen does at a mount: it stops at the path itself and where the driver opens
the file. -/
def vfsfopenPass (m : Mount) (w : W) : Pass W :=
  if path.length < m.2.mountpath.length then .skip
  else if path = m.2.mountpath then .stop
  else match (drivers m.2.vfsDriver).fsopenfile (path.drop m.2.mountpath.length) w with
    | (some _, _) => .stop
    | (none, world) => .pass world

def remainder (mountpath : Str) : Str := if path.drop mountpath.length = [] then [slash] else path.drop mountpath.length

def opendirOffer (m : Mount) : List (Nat × Str) :=
  if m.2.mountpath <+: path then [(m.1, remainder path m.2.mountpath)] else []

def Longer (m : Mount) : Prop := path.length < m.2.mountpath.length

instance (m : Mount) : Decidable (Longer path m) := Nat.decLt _ _

def vfsfopenOffer (m : Mount) : List (Nat × Str) :=
  if Longer path m ∨ path = m.2.mountpath then [] else [(m.1, path.drop m.2.mountpath.length)]

theorem opendirPass_skip_iff (m : Mount) (u : Unit) : opendirPass path m u = .skip ↔ Longer path m := by
  refine skip_iff fun h => ?_
  split at h <;> cases h

theorem vfsfopenPass_skip_iff (m : Mount) (w : W) : vfsfopenPass drivers path m w = .skip ↔ Longer path m := by
  refine skip_iff fun h => ?_
  split at h
  · cases h
  · split at h <;> cases h

variable {drivers path}

theorem not_longer {m : Mount} (h : m.2.mountpath <+: path) : ¬ Longer path m := Nat.not_lt.mpr h.length_le

theorem opendirPass_stop {m : Mount} {u : Unit} (h : opendirPass path m u = .stop) : m.2.mountpath <+: path := by
  unfold opendirPass at h
  split at h
  · cases h
  · split at h
    · next hprefix => exact hprefix
    · cases h

theorem opendirPass_pass {m : Mount} {u v : Unit} (h : opendirPass path m u = .pass v) :
    ¬ Longer path m ∧ ¬ m.2.mountpath <+: path := by
  unfold opendirPass at h
  split at h
  · cases h
  · next hlt =>
      split at h
      · cases h
      · next hprefix => exact ⟨hlt, hprefix⟩

theorem vfsfopenPass_stop {m : Mount} {w : W} (h : vfsfopenPass drivers path m w = .stop) : ¬ Longer path m ∧
    (path = m.2.mountpath ∨ path ≠ m.2.mountpath ∧ ∃ file world,
      (drivers m.2.vfsDriver).fsopenfile (path.drop m.2.mountpath.length) w = (some file, world)) := by
  unfold vfsfopenPass at h
  split at h
  · cases h
  · next hlt =>
      refine ⟨hlt, ?_⟩
      split at h
      · next heq => exact .inl heq
      · next hne =>
          split at h
          · next file world hopen => exact .inr ⟨hne, file, world, hopen⟩
          · cases h

theorem vfsfopenPass_pass {m : Mount} {w world : W} (h : vfsfopenPass drivers path m w = .pass world) :
    ¬ Longer path m ∧ path ≠ m.2.mountpath ∧
      (drivers m.2.vfsDriver).fsopenfile (path.drop m.2.mountpath.length) w = (none, world) := by
  unfold vfsfopenPass at h
  split at h
  · cases h
  · next hlt =>
      split at h
      · cases h
      · next hne =>
          split at h
          · cases h
          · next hopen =>
              cases h
              exact ⟨hlt, hne, hopen⟩

theorem remainder_self : remainder path path = [slash] := by
  rw [remainder, List.drop_length, if_pos rfl]

theorem remainder_of_ne {mountpath : Str} (h : mountpath <+: path) (hne : path ≠ mountpath) :
    remainder path mountpath = path.drop mountpath.length := by
  refine if_neg fun hnil => hne ?_
  have hsplit : path = mountpath ++ path.drop mountpath.length := List.prefix_append_drop h
  rwa [hnil, List.append_nil] at hsplit

theorem opendirOffer_of_longer {m : Mount} (h : Longer path m) : opendirOffer path m = [] :=
  if_neg fun hprefix => not_longer hprefix h

end Passes

def Trace.along (t : Trace) (offer : Mount → List (Nat × Str)) (ms : List Mount) : Trace :=
  ⟨t.visited ++ ms.map Prod.fst, t.calls ++ ms.flatMap offer⟩

section Traces

variable {t : Trace} {offer : Mount → List (Nat × Str)} {m : Mount}

theorem Trace.along_nil : t.along offer [] = t := by
  simp only [Trace.along, List.map_nil, List.flatMap_nil, List.append_nil]

theorem Trace.along_cons (ms : List Mount) : (t.along offer [m]).along offer ms = t.along offer (m :: ms) := by
  simp only [Trace.along, List.map_cons, List.map_nil, List.flatMap_cons, List.flatMap_nil, List.append_nil,
    List.append_assoc, List.singleton_append]

theorem Trace.along_visit (h : offer m = []) : t.along offer [m] = t.visit m.1 := by
  simp only [Trace.along, Trace.visit, List.map_cons, List.map_nil, List.flatMap_cons, List.flatMap_nil, h,
    List.append_nil]

theorem Trace.along_call {subpath : Str} (h : offer m = [(m.1, subpath)]) :
    t.along offer [m] = (t.visit m.1).call m.1 subpath := by
  simp only [Trace.along, Trace.visit, Trace.call, List.map_cons, List.map_nil, List.flatMap_cons, List.flatMap_nil, h,
    List.append_nil]

end Traces

variable {ρ σ : Type}

def At (v : Walking W) (m : Mount) : Prop := v.itr = some m.1 ∧ v.state.nodes m.1 = some m.2

/-- From a mount a pass goes on to a pointer, and nothing is done to the list. -/
structure Onward (offer : Mount → List (Nat × Str)) (v : Walking W) (m : Mount) (next : Option Nat)
    (w : Walking W) : Prop where
  itr : w.itr = next
  nodes : w.state.nodes = v.state.nodes
  trace : w.trace = v.trace.along offer [m]

/-- The passes of a loop over the mounts: at the end, at a mount behind which the next one
is skipped, which may not be there, at one where it stops, and at one where it goes on. -/
structure WalksAs (body : Walking W → Iter (Walking W) (Except Fault ρ × Trace)) (f : Mount → σ → Pass σ)
    (st : Walking W → σ) (offer : Mount → List (Nat × Str)) : Prop where
  finish : ∀ v : Walking W, v.itr = none → ∃ q, body v = .done (.ok q, v.trace)
  overrun : ∀ v m, At v m → f m (st v) = .skip → m.2.next = none →
    ∃ e, body v = .done (.error e, v.trace.along offer [m])
  skip : ∀ v m (n : Mount), At v m → f m (st v) = .skip → m.2.next = some n.1 → v.state.nodes n.1 = some n.2 →
    ∃ w, body v = .next w ∧ Onward offer v m n.2.next w ∧ st w = st v
  stop : ∀ v m, At v m → f m (st v) = .stop → ∃ q, body v = .done (.ok q, v.trace.along offer [m])
  pass : ∀ v m s, At v m → f m (st v) = .pass s → ∃ w, body v = .next w ∧ Onward offer v m m.2.next w ∧ st w = s

theorem WalksAs.returns {body : Walking W → Iter (Walking W) (Except Fault ρ × Trace)} {f : Mount → σ → Pass σ}
    {st : Walking W → σ} {offer : Mount → List (Nat × Str)} (hbody : WalksAs body f st offer) {ms : List Mount} {s : σ}
    {v : Walking W} (hst : st v = s) (h : Linked v.state.nodes v.itr ms) :
    ∃ r, Returns body v (r, v.trace.along offer (walk f ms s).1) ∧ ((∃ q, r = .ok q) ↔ (walk f ms s).2 = true) := by
  fun_induction walk f ms s generalizing v with
  | case1 =>
      obtain ⟨q, hdone⟩ := hbody.finish v h
      rw [Trace.along_nil]
      exact ⟨.ok q, .of_done hdone, iff_of_true ⟨q, rfl⟩ rfl⟩
  | case2 m s hf =>
      subst hst
      obtain ⟨hitr, hnode, hnext⟩ := h
      obtain ⟨e, hdone⟩ := hbody.overrun v m ⟨hitr, hnode⟩ hf hnext
      refine ⟨.error e, .of_done hdone, iff_of_false ?_ Bool.false_ne_true⟩
      rintro ⟨q, hq⟩
      cases hq
  | case3 m s hf =>
      subst hst
      obtain ⟨hitr, hnode, hnext⟩ := h
      cases hm : f m (st v) with
      | skip => exact absurd hm hf
      | stop =>
          obtain ⟨q, hdone⟩ := hbody.stop v m ⟨hitr, hnode⟩ hm
          exact ⟨.ok q, .of_done hdone, iff_of_true ⟨q, rfl⟩ rfl⟩
      | pass s =>
          obtain ⟨w, hw, honward, -⟩ := hbody.pass v m s ⟨hitr, hnode⟩ hm
          obtain ⟨q, hdone⟩ := hbody.finish w (honward.itr.trans hnext)
          rw [honward.trace] at hdone
          exact ⟨.ok q, .of_next hw (.of_done hdone), iff_of_true ⟨q, rfl⟩ rfl⟩
  | case4 m n rest s hf ih =>
      subst hst
      obtain ⟨hitr, hnode, hnext, hnode', hrest⟩ := h
      obtain ⟨w, hw, honward, hst⟩ := hbody.skip v m n ⟨hitr, hnode⟩ hf hnext hnode'
      have hw' : Linked w.state.nodes w.itr rest := by rwa [honward.nodes, honward.itr]
      obtain ⟨r, hreturns, hok⟩ := ih hst hw'
      rw [honward.trace, Trace.along_cons] at hreturns
      exact ⟨r, .of_next hw hreturns, hok⟩
  | case5 m n rest s hf =>
      subst hst
      obtain ⟨q, hdone⟩ := hbody.stop v m ⟨h.1, h.2.1⟩ hf
      exact ⟨.ok q, .of_done hdone, iff_of_true ⟨q, rfl⟩ rfl⟩
  | case6 m n rest s t hf ih =>
      subst hst
      obtain ⟨w, hw, honward, hst⟩ := hbody.pass v m t ⟨h.1, h.2.1⟩ hf
      have hw' : Linked w.state.nodes w.itr (n :: rest) := by
        rw [honward.nodes, honward.itr]
        exact h.2.2
      obtain ⟨r, hreturns, hok⟩ := ih hst hw'
      rw [honward.trace, Trace.along_cons] at hreturns
      exact ⟨r, .of_next hw hreturns, hok⟩

section Bodies

variable (drivers : Nat → FsDriver W) (path : Str)

theorem deref_at {v : Walking W} {m : Mount} (h : v.state.nodes m.1 = some m.2) :
    deref v.state.nodes (some m.1) = .ok m.2 := by
  simp only [deref, h]

theorem opendirBodyLog_walks (slot : Fin 16) :
    WalksAs (opendirBodyLog drivers path slot) (opendirPass path) (fun _ => ()) (opendirOffer path) := by
  constructor
  · intro v hitr
    simp only [opendirBodyLog, hitr]
    exact ⟨_, rfl⟩
  · intro v m hm hf hnext
    have hlt : path.length < m.2.mountpath.length := (opendirPass_skip_iff path m ()).mp hf
    rw [Trace.along_visit (opendirOffer_of_longer hlt)]
    simp only [opendirBodyLog, hm.1, deref_at hm.2, if_pos hlt, hnext]
    exact ⟨_, rfl⟩
  · intro v m n hm hf hnext hn
    have hlt : path.length < m.2.mountpath.length := (opendirPass_skip_iff path m ()).mp hf
    simp only [opendirBodyLog, hm.1, deref_at hm.2, if_pos hlt, hnext, deref_at hn]
    exact ⟨_, rfl, ⟨rfl, rfl, (Trace.along_visit (opendirOffer_of_longer hlt)).symm⟩, trivial⟩
  · intro v m hm hf
    have hprefix := opendirPass_stop hf
    have hlt : ¬ path.length < m.2.mountpath.length := not_longer hprefix
    rw [Trace.along_call (if_pos hprefix)]
    by_cases heq : path = m.2.mountpath
    · have hremainder : remainder path m.2.mountpath = [slash] := by rw [← heq, remainder_self]
      simp only [opendirBodyLog, hm.1, deref_at hm.2, if_neg hlt, if_pos heq, hremainder]
      exact ⟨_, rfl⟩
    · simp only [opendirBodyLog, hm.1, deref_at hm.2, if_neg hlt, if_neg heq, if_pos hprefix,
        remainder_of_ne hprefix heq]
      exact ⟨_, rfl⟩
  · intro v m u hm hf
    obtain ⟨hlt, hprefix⟩ := opendirPass_pass hf
    have hne : path ≠ m.2.mountpath := fun heq => hprefix (heq ▸ List.prefix_rfl)
    rw [Longer] at hlt
    simp only [opendirBodyLog, hm.1, deref_at hm.2, if_neg hlt, if_neg hne, if_neg hprefix]
    exact ⟨_, rfl, ⟨rfl, rfl, (Trace.along_visit (if_neg hprefix)).symm⟩, trivial⟩

theorem vfsfopenBodyLog_walks (vfsofindex : Fin 64) :
    WalksAs (vfsfopenBodyLog drivers path vfsofindex) (vfsfopenPass drivers path) (fun v => v.state.world)
      (vfsfopenOffer path) := by
  constructor
  · intro v hitr
    simp only [vfsfopenBodyLog, hitr]
    exact ⟨_, rfl⟩
  · intro v m hm hf hnext
    have hlt : path.length < m.2.mountpath.length := (vfsfopenPass_skip_iff drivers path m _).mp hf
    rw [Trace.along_visit (if_pos (.inl hlt))]
    simp only [vfsfopenBodyLog, hm.1, deref_at hm.2, if_pos hlt, hnext]
    exact ⟨_, rfl⟩
  · intro v m n hm hf hnext hn
    have hlt : path.length < m.2.mountpath.length := (vfsfopenPass_skip_iff drivers path m _).mp hf
    simp only [vfsfopenBodyLog, hm.1, deref_at hm.2, if_pos hlt, hnext, deref_at hn]
    exact ⟨_, rfl, ⟨rfl, rfl, (Trace.along_visit (if_pos (.inl hlt))).symm⟩, rfl⟩
  · intro v m hm hf
    obtain ⟨hlt, heq | ⟨hne, file, world, hopen⟩⟩ := vfsfopenPass_stop hf
    · rw [Trace.along_visit (if_pos (.inr heq))]
      rw [Longer] at hlt
      simp only [vfsfopenBodyLog, hm.1, deref_at hm.2, if_neg hlt, if_pos heq]
      exact ⟨_, rfl⟩
    · rw [Trace.along_call (if_neg (not_or.mpr ⟨hlt, hne⟩))]
      rw [Longer] at hlt
      simp only [vfsfopenBodyLog, hm.1, deref_at hm.2, if_neg hlt, if_neg hne, hopen]
      exact ⟨_, rfl⟩
  · intro v m world hm hf
    obtain ⟨hlt, hne, hopen⟩ := vfsfopenPass_pass hf
    have hoffer : vfsfopenOffer path m = _ := if_neg (not_or.mpr ⟨hlt, hne⟩)
    rw [Longer] at hlt
    simp only [vfsfopenBodyLog, hm.1, deref_at hm.2, if_neg hlt, if_neg hne, hopen]
    exact ⟨_, rfl, ⟨rfl, rfl, (Trace.along_call hoffer).symm⟩, rfl⟩

end Bodies

section Mounted

/-- Systems mounted at the paths in their order, each with a driver of its own. -/
def mounted (paths : List Str) : VfsState Unit where
  vfsMfs := paths.head?.map fun _ => 0
  nodes a := paths[a]?.map fun path =>
    ⟨path, a, if a = 0 then none else some (a - 1), if a + 1 < paths.length then some (a + 1) else none⟩
  vfsOpenDirs _ := ⟨none, none⟩
  vfsOpenFiles _ := ⟨none, none⟩
  world := ()

def sdPath : Str := [slash, 0x73, 0x64]

def rootMount (next : Option Nat) : Mount := (0, ⟨rootPath, 0, none, next⟩)

def sdMount : Mount := (1, ⟨sdPath, 1, some 0, none⟩)

theorem sd_linked : Linked (mounted [rootPath, sdPath]).nodes (mounted [rootPath, sdPath]).vfsMfs
    [rootMount (some 1), sdMount] :=
  ⟨rfl, rfl, rfl, rfl, rfl⟩

end Mounted

end MetalNes.MountWalks
