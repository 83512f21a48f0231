import Embargo.Proofs.Code.DepthSearch

/-!
The stack limit. Where the depths on all ways to each instruction agree, it is the greatest of
them, and nothing of the order in which the ways are tried shows in it.
-/
namespace Embargo

/-- The depth behind an instruction, without a bound. -/
def StackEffect.apply (effect : StackEffect) (depth : Nat) : Nat :=
  depth - effect.pops.toNat + effect.pushes.toNat

namespace StackDepth
variable {pool : Pool} {code : List Located} {starts : List Nat} {search next found : Search}
  {located : Located}

/-- A search that has come nowhere. -/
def Search.blank (code : List Located) : Search :=
  { depths := Array.replicate code.length none, pending := [] }

/-- The offsets of handlers and further entries, with their depths. -/
def seeds (handlers : List Handler) (entries : List (Nat × UInt16)) : List (Nat × UInt16) :=
  handlers.map (fun handler => (handler.handlerPc.toNat, 1)) ++ entries

theorem Search.depth?_blank (position : Nat) : (blank code).depth? position = none := by
  rw [depth?, blank, Array.getElem?_replicate]
  split <;> rfl

section Start
variable {entries : List (Nat × UInt16)} (hcode : (code.map Located.offset).Nodup)
  (hfound : ((Search.blank code).reach 0 0).reachAll (OffsetIndex.ofCode code) entries
    = .ok found)
include hcode hfound

/-- The search starts from the first instruction with an empty stack, and from the entries. -/
theorem reaches_start : ∃ places, (Search.blank code).Reaches ((0, 0) :: places) found ∧
    List.Forall₂ (fun entry place => IsAt code place.1 entry.1 ∧ place.2 = entry.2) entries
      places := by
  obtain ⟨places, hplaces, hreaches⟩ := Search.reaches_of_reachAll hfound
  refine ⟨places, (Search.reaches_reach _ 0 0).append hreaches, hplaces.imp ?_⟩
  exact fun _ _ hfind => hfind.imp_left (OffsetIndex.find_eq_ok_iff hcode).1

theorem searching_start (hne : code ≠ []) :
    Searching pool code (entries.map Prod.fst) found [] := by
  obtain ⟨places, hreaches, hplaces⟩ := reaches_start hcode hfound
  obtain ⟨fresh, hfresh, hnodup, hmem⟩ := hreaches.pending
  have hsize : (Search.blank code).depths.size = code.length := Array.size_replicate
  have hpending : found.pending = fresh := hfresh.trans (List.append_nil fresh)
  refine ⟨hreaches.size.trans hsize, ?_, fun position => ?_, nofun, fun position hsome => ?_,
    ⟨?_, fun offset hoffset position hat => ?_⟩, nofun⟩
  · simpa [hpending] using hnodup
  · simp [hpending, hmem, Search.depth?_blank]
  · obtain ⟨depth, hdepth⟩ := Option.isSome_iff_exists.1 hsome
    rcases hreaches.source position depth hdepth with hblank | hplace
    · rw [Search.depth?_blank] at hblank
      cases hblank
    · rcases List.mem_cons.1 hplace with hplace | hplace
      · cases hplace
        exact .entry
      · obtain ⟨entry, hentry, hat, -⟩ := Forall₂.exists_of_mem_right hplaces hplace
        exact .start (List.mem_map_of_mem hentry) hat
  · exact hreaches.known (0, 0) List.mem_cons_self (hsize ▸ List.length_pos_iff.2 hne)
  · obtain ⟨entry, hentry, rfl⟩ := List.mem_map.1 hoffset
    obtain ⟨place, hplace, hplaced, -⟩ := Forall₂.exists_of_mem_left hplaces hentry
    rw [← hplaced.unique hcode hat]
    exact hreaches.known place (List.mem_cons_of_mem _ hplace) (hsize ▸ hplaced.lt)

end Start

theorem limit_eq {handlers : List Handler} {entries : List (Nat × UInt16)} (hne : code ≠ []) :
    limit pool code handlers entries = (do
      let search ← ((Search.blank code).reach 0 0).reachAll (OffsetIndex.ofCode code)
        (seeds handlers entries)
      deepest pool (OffsetIndex.ofCode code) code.toArray code.length search 0) := by
  rw [limit, if_neg (by simpa using hne)]
  rfl

/-- Depths by position that agree on every way that control can come. -/
structure Consistent (pool : Pool) (code : List Located) (seeds : List (Nat × UInt16))
    (depth : Nat → Nat) : Prop where
  entry : depth 0 = 0
  seed : ∀ seed ∈ seeds, ∃ position, IsAt code position seed.1 ∧ depth position = seed.2.toNat
  flow : ∀ position located, Reachable code (seeds.map Prod.fst) position →
    code[position]? = some located →
    ∃ effect, StackEffect.of pool located.instruction = .ok effect ∧
      effect.pops.toNat ≤ depth position ∧ effect.apply (depth position) ≤ 65535 ∧
      (∀ target ∈ located.instruction.targets, ∃ next, IsAt code next target ∧
        depth next = effect.apply (depth position)) ∧
      (located.instruction.endsFlow = false → position + 1 < code.length →
        depth (position + 1) =
          if located.instruction.opcode = Opcode.jsr ∨ located.instruction.opcode = Opcode.jsrW
          then depth position else effect.apply (depth position))

/-- The depths that agree, in front of and behind each instruction that control can come to. -/
def depthsOf (pool : Pool) (code : List Located) (seeds : List (Nat × UInt16))
    (depth : Nat → Nat) : Set Nat :=
  {n | ∃ position located effect, Reachable code (seeds.map Prod.fst) position ∧
    code[position]? = some located ∧ StackEffect.of pool located.instruction = .ok effect ∧
    (depth position = n ∨ effect.apply (depth position) = n)}

/-- The depths found so far are those that agree. -/
def Search.Agrees (search : Search) (depth : Nat → Nat) : Prop :=
  ∀ position found, search.depth? position = some found → found.toNat = depth position

theorem Visit.toNat_after {visit : Visit} (hpops : visit.effect.pops ≤ visit.before) :
    visit.after.toNat = visit.effect.apply visit.before.toNat % 65536 := by
  rw [after, UInt16.toNat_add, UInt16.toNat_sub_of_le _ _ hpops]
  rfl

theorem Visit.toNat_after_of_le {visit : Visit} (hpops : visit.effect.pops ≤ visit.before)
    (hbound : visit.effect.apply visit.before.toNat ≤ 65535) :
    visit.after.toNat = visit.effect.apply visit.before.toNat := by
  rw [toNat_after hpops]
  exact Nat.mod_eq_of_lt (by omega)

/-- A bound of the depth that the search keeps behind an instruction is one of the depth itself,
as long as there is no carry out of the 16 bits. -/
theorem Visit.apply_le_iff {visit : Visit} {bound : UInt16}
    (hpops : visit.effect.pops ≤ visit.before) (hafter : visit.after ≤ bound) :
    visit.effect.apply visit.before.toNat ≤ bound.toNat ↔
      visit.effect.apply visit.before.toNat < 65536 := by
  have hbound := bound.toNat_lt
  rw [UInt16.le_iff_toNat_le, toNat_after hpops] at hafter
  omega

namespace Consistent
variable {seeds : List (Nat × UInt16)} {depth : Nat → Nat}
  (h : Consistent pool code seeds depth) (hcode : (code.map Located.offset).Nodup)
include h hcode

/-- A visit hands on depths that agree. -/
theorem agrees_next {visit : Visit} {pending : List Nat} (hagrees : search.Agrees depth)
    (hreachable : Reachable code (seeds.map Prod.fst) visit.position)
    (hlocated : code[visit.position]? = some located)
    (hbefore : search.depth? visit.position = some visit.before)
    (hsize : search.depths.size = code.length)
    (hfollows : visit.Follows pool code { search with pending } located next) :
    next.Agrees depth := by
  obtain ⟨places, hreaches, hhands, -⟩ := hfollows.reaches
  obtain ⟨effect, heffect, -, hbound, htargets, hfall⟩ :=
    h.flow visit.position located hreachable hlocated
  cases heffect.symm.trans hfollows.effect
  have hhere := hagrees visit.position visit.before hbefore
  rw [← hhere] at hbound htargets hfall
  have hafter := Visit.toNat_after_of_le hfollows.pops hbound
  intro position found hdepth
  rcases hreaches.source position found hdepth with hold | hplace
  · exact hagrees position found hold
  · cases hhands _ hplace with
    | jump htarget hnext =>
      obtain ⟨place, hat, hplaced⟩ := htargets _ htarget
      rw [hafter, ← hplaced, hat.unique hcode hnext]
    | fall hflow =>
      have hlt := Search.lt_of_depth? hdepth
      rw [hreaches.size.trans hsize] at hlt
      rw [hfall hflow hlt, Visit.next]
      split
      · rfl
      · exact hafter

/-- A visit where depths agree ends well. -/
theorem exists_follow (search : Search) {position : Nat} {before : UInt16}
    (hreachable : Reachable code (seeds.map Prod.fst) position)
    (hlocated : code[position]? = some located) (hbefore : before.toNat = depth position) :
    ∃ next reached, follow pool (OffsetIndex.ofCode code) search position before located
      = .ok (next, reached) := by
  obtain ⟨effect, heffect, hpops, -, htargets, -⟩ := h.flow position located hreachable hlocated
  have hbelow : ¬before < effect.pops := by
    rw [UInt16.not_lt, UInt16.le_iff_toNat_le, hbefore]
    exact hpops
  let visit : Visit := ⟨position, before, effect⟩
  have hplaces : ∀ entry ∈ located.instruction.targets.map fun target => (target, visit.after),
      ∃ place, (OffsetIndex.ofCode code).find entry.1 = .ok place := by
    intro entry hentry
    obtain ⟨target, htarget, rfl⟩ := List.mem_map.1 hentry
    obtain ⟨place, hat, -⟩ := htargets target htarget
    exact ⟨place, (OffsetIndex.find_eq_ok_iff hcode).2 hat⟩
  obtain ⟨middle, hmiddle⟩ := Search.exists_reachAll search hplaces
  refine ⟨if located.instruction.endsFlow then middle
    else middle.reach (position + 1) (visit.next located.instruction.opcode),
    max before visit.after, Except.bind_eq_ok_iff.2 ⟨effect, heffect, ?_⟩⟩
  dsimp only
  rw [if_neg hbelow]
  exact Except.bind_eq_ok_iff.2 ⟨middle, hmiddle, rfl⟩

theorem exists_deepest {done : List Visit} (fuel : Nat)
    (hsearching : Searching pool code (seeds.map Prod.fst) search done)
    (hagrees : search.Agrees depth) (deep : UInt16) :
    ∃ limit, deepest pool (OffsetIndex.ofCode code) code.toArray fuel search deep
      = .ok limit := by
  induction fuel generalizing search done deep with
  | zero => exact ⟨deep, rfl⟩
  | succ fuel ih =>
    rw [deepest]
    split
    case h_1 => exact ⟨deep, rfl⟩
    case h_2 position pending hpending =>
      obtain ⟨before, located, hbefore, hlocated⟩ := hsearching.of_pending hpending
      have hreachable := hsearching.reachable position (by rw [hbefore]; rfl)
      obtain ⟨next, reached, hfollow⟩ := h.exists_follow hcode { search with pending }
        hreachable hlocated (hagrees position before hbefore)
      obtain ⟨effect, hfollows, -⟩ := follows_of_follow hcode hfollow
      have hstep := hsearching.step hcode hpending hlocated hbefore hfollows
      have hnext : next.Agrees depth :=
        h.agrees_next hcode hagrees hreachable hlocated hbefore hsearching.size hfollows
      rw [List.getElem?_toArray, hlocated]
      dsimp only
      rw [show search.depths[position]?.join = some before from hbefore, Option.getD_some, hfollow]
      exact ih hstep hnext _

theorem agrees_last {done visits : List Visit} {last : Search}
    (hrun : Run pool code search visits last)
    (hsearching : Searching pool code (seeds.map Prod.fst) search done)
    (hagrees : search.Agrees depth) : last.Agrees depth := by
  induction hrun generalizing done with
  | nil => exact hagrees
  | cons hpending hlocated hbefore heffect hfollow _ ih =>
    obtain ⟨effect, hfollows, -⟩ := follows_of_follow hcode hfollow
    cases hfollows.effect.symm.trans heffect
    have hreachable := hsearching.reachable _ (by rw [hbefore]; rfl)
    exact ih (hsearching.step hcode hpending hlocated hbefore hfollows)
      (h.agrees_next hcode hagrees hreachable hlocated hbefore hsearching.size hfollows)

theorem agrees_start (hfound : ((Search.blank code).reach 0 0).reachAll
    (OffsetIndex.ofCode code) seeds = .ok found) : found.Agrees depth := by
  obtain ⟨places, hreaches, hplaces⟩ := reaches_start hcode hfound
  intro position known hknown
  rcases hreaches.source position known hknown with hblank | hplace
  · rw [Search.depth?_blank] at hblank
    cases hblank
  · rcases List.mem_cons.1 hplace with hplace | hplace
    · cases hplace
      exact h.entry.symm
    · obtain ⟨entry, hentry, hat, rfl⟩ := Forall₂.exists_of_mem_right hplaces hplace
      obtain ⟨place, hplaced, hdepth⟩ := h.seed entry hentry
      rw [← hdepth, hplaced.unique hcode hat]

end Consistent

/-- What a search that ends well went through. -/
theorem exists_run_of_limit {handlers : List Handler} {entries : List (Nat × UInt16)}
    {deepest : UInt16} (hcode : (code.map Located.offset).Nodup) (hne : code ≠ [])
    (h : limit pool code handlers entries = .ok deepest) :
    ∃ first visits last,
      ((Search.blank code).reach 0 0).reachAll (OffsetIndex.ofCode code) (seeds handlers entries)
        = .ok first ∧
      Run pool code first visits last ∧ last.pending = [] ∧
      Searching pool code ((seeds handlers entries).map Prod.fst) last visits.reverse ∧
      Tops visits 0 deepest.toNat := by
  rw [limit_eq hne] at h
  obtain ⟨first, hfirst, hdeepest⟩ := Except.bind_eq_ok_iff.1 h
  obtain ⟨visits, last, hrun, hpending, hlast, htops⟩ :=
    (searching_start hcode hfirst hne).run hcode code.length (Nat.le_add_right _ _) hdeepest
  rw [List.append_nil] at hlast
  exact ⟨first, visits, last, hfirst, hrun, hpending, hlast, htops⟩

/-- A search keeps the depths that it has found. -/
theorem Run.keeps (hcode : (code.map Located.offset).Nodup) {visits : List Visit} {last : Search}
    (h : Run pool code search visits last) {position : Nat} {depth : UInt16}
    (hdepth : search.depth? position = some depth) : last.depth? position = some depth := by
  induction h with
  | nil => exact hdepth
  | cons _ _ _ _ hfollow _ ih =>
    obtain ⟨_, hfollows, -⟩ := follows_of_follow hcode hfollow
    obtain ⟨places, hreaches, -⟩ := hfollows.reaches
    exact ih (hreaches.keeps position depth hdepth)

/-- An entry is below the limit, unless there is another depth for its instruction. -/
theorem le_limit_of_entry {handlers : List Handler} {entries : List (Nat × UInt16)}
    {deepest : UInt16} (hcode : (code.map Located.offset).Nodup) (hne : code ≠ [])
    (h : limit pool code handlers entries = .ok deepest) {entry : Nat × UInt16}
    (hentry : entry ∈ seeds handlers entries) (hfirst : ¬ IsAt code 0 entry.1)
    (hsame : ∀ other ∈ seeds handlers entries, other.1 = entry.1 → other.2 = entry.2) :
    entry.2.toNat ≤ deepest.toNat := by
  obtain ⟨first, visits, last, hstart, hrun, hpending, hlast, -, hbound⟩ :=
    exists_run_of_limit hcode hne h
  obtain ⟨places, hreaches, hplaces⟩ := reaches_start hcode hstart
  obtain ⟨place, hplace, hat, -⟩ := Forall₂.exists_of_mem_left hplaces hentry
  have hsize : (Search.blank code).depths.size = code.length := Array.size_replicate
  obtain ⟨depth, hdepth⟩ := Option.isSome_iff_exists.1
    (hreaches.known place (List.mem_cons_of_mem _ hplace) (hsize ▸ hat.lt))
  have hdepth_eq : depth = entry.2 := by
    rcases hreaches.source place.1 depth hdepth with hblank | hsource
    · rw [Search.depth?_blank] at hblank
      cases hblank
    · rcases List.mem_cons.1 hsource with hzero | hsource
      · rw [(Prod.mk.inj hzero).1] at hat
        exact absurd hat hfirst
      · obtain ⟨other, hother, ⟨located, hlocated, hoffset⟩, hvalue⟩ :=
          Forall₂.exists_of_mem_right hplaces hsource
        obtain ⟨here, hhere, hentryOffset⟩ := hat
        cases hlocated.symm.trans hhere
        exact hvalue.trans (hsame other hother (hoffset.symm.trans hentryOffset))
  have hreachable : Reachable code ((seeds handlers entries).map Prod.fst) place.1 :=
    .start (List.mem_map_of_mem hentry) hat
  obtain ⟨visit, hvisit, hposition⟩ := List.mem_map.1 ((hlast.mem_done_iff hpending).2 hreachable)
  obtain ⟨hbefore, -⟩ := hlast.visited visit hvisit
  rw [hposition, hrun.keeps hcode hdepth, hdepth_eq] at hbefore
  rw [Option.some.inj hbefore]
  exact hbound (.inr ⟨visit, List.mem_reverse.1 hvisit, .inl rfl⟩)

namespace Consistent
variable {handlers : List Handler} {entries : List (Nat × UInt16)} {depth : Nat → Nat}
  (h : Consistent pool code (seeds handlers entries) depth)
  (hcode : (code.map Located.offset).Nodup) (hne : code ≠ [])
include h hcode hne

/-- Where depths agree, the search ends well. -/
theorem exists_limit : ∃ deepest, limit pool code handlers entries = .ok deepest := by
  have hplaces : ∀ seed ∈ seeds handlers entries, ∃ position,
      (OffsetIndex.ofCode code).find seed.1 = .ok position := by
    intro seed hseed
    obtain ⟨position, hat, -⟩ := h.seed seed hseed
    exact ⟨position, (OffsetIndex.find_eq_ok_iff hcode).2 hat⟩
  obtain ⟨first, hfirst⟩ := Search.exists_reachAll ((Search.blank code).reach 0 0) hplaces
  have hstart : Searching pool code ((seeds handlers entries).map Prod.fst) first [] :=
    searching_start hcode hfirst hne
  obtain ⟨deepest, hdeepest⟩ :=
    h.exists_deepest hcode code.length hstart (h.agrees_start hcode hfirst) 0
  refine ⟨deepest, ?_⟩
  rw [limit_eq hne]
  exact Except.bind_eq_ok_iff.2 ⟨first, hfirst, hdeepest⟩

/-- Where depths agree, the limit is the greatest of them. -/
theorem isGreatest {deepest : UInt16} (hlimit : limit pool code handlers entries = .ok deepest) :
    IsGreatest (depthsOf pool code (seeds handlers entries) depth) deepest.toNat := by
  obtain ⟨first, visits, last, hfirst, hrun, hpending, hlast, hmem, hbound⟩ :=
    exists_run_of_limit hcode hne hlimit
  have hagrees : last.Agrees depth := h.agrees_last hcode hrun
    (searching_start hcode hfirst hne) (h.agrees_start hcode hfirst)
  have hvisit : ∀ visit ∈ visits, ∃ located, code[visit.position]? = some located ∧
      StackEffect.of pool located.instruction = .ok visit.effect ∧
      visit.before.toNat = depth visit.position ∧
      visit.after.toNat = visit.effect.apply (depth visit.position) := by
    intro visit hvisit
    obtain ⟨hbefore, located, hlocated, heffect, hpops⟩ :=
      hlast.visited visit (List.mem_reverse.2 hvisit)
    have hreachable := hlast.reachable visit.position (by rw [hbefore]; rfl)
    have hdepth := hagrees visit.position visit.before hbefore
    obtain ⟨effect, heffect', -, hle, -⟩ := h.flow visit.position located hreachable hlocated
    cases heffect'.symm.trans heffect
    rw [← hdepth] at hle ⊢
    exact ⟨located, hlocated, heffect, rfl, Visit.toNat_after_of_le hpops hle⟩
  have hvisited : ∀ position, (∃ visit ∈ visits, visit.position = position) ↔
      Reachable code ((seeds handlers entries).map Prod.fst) position := by
    intro position
    rw [← hlast.mem_done_iff hpending]
    simp
  constructor
  · rcases hmem with hzero | ⟨visit, hmem, hdepth⟩
    · obtain ⟨visit, hmem, hposition⟩ := (hvisited 0).2 .entry
      obtain ⟨located, hlocated, heffect, -⟩ := hvisit visit hmem
      rw [hposition] at hlocated
      exact ⟨0, located, visit.effect, .entry, hlocated, heffect, .inl (h.entry.trans hzero.symm)⟩
    · obtain ⟨located, hlocated, heffect, hbefore, hafter⟩ := hvisit visit hmem
      rw [hbefore, hafter] at hdepth
      exact ⟨visit.position, located, visit.effect, (hvisited _).1 ⟨visit, hmem, rfl⟩, hlocated,
        heffect, hdepth⟩
  · rintro n ⟨position, located, effect, hreachable, hlocated, heffect, hdepth⟩
    obtain ⟨visit, hmem, rfl⟩ := (hvisited position).2 hreachable
    obtain ⟨located', hlocated', heffect', hbefore, hafter⟩ := hvisit visit hmem
    cases hlocated.symm.trans hlocated'
    cases heffect.symm.trans heffect'
    rw [← hafter, ← hbefore] at hdepth
    exact hbound (.inr ⟨visit, hmem, hdepth⟩)

end Consistent

/-- An instruction with its targets in another order. -/
inductive Reordered : Instruction → Instruction → Prop
  | refl (i : Instruction) : Reordered i i
  | tableSwitch {otherwise otherwise' : Nat} {low high : Int32} {targets targets' : List Nat}
      (h : (otherwise :: targets).Perm (otherwise' :: targets')) :
      Reordered (.tableSwitch otherwise low high targets)
        (.tableSwitch otherwise' low high targets')
  | lookupSwitch {otherwise otherwise' : Nat} {pairs pairs' : List (Int32 × Nat)}
      (h : (otherwise :: pairs.map Prod.snd).Perm (otherwise' :: pairs'.map Prod.snd)) :
      Reordered (.lookupSwitch otherwise pairs) (.lookupSwitch otherwise' pairs')

namespace Reordered
variable {i j : Instruction} (h : Reordered i j)
include h

theorem symm : Reordered j i := by
  cases h with
  | refl => exact .refl i
  | tableSwitch h => exact .tableSwitch h.symm
  | lookupSwitch h => exact .lookupSwitch h.symm

theorem opcode_eq : j.opcode = i.opcode := by cases h <;> rfl

theorem effect_eq (pool : Pool) : StackEffect.of pool j = StackEffect.of pool i := by
  cases h <;> rfl

theorem targets_perm : i.targets.Perm j.targets := by
  cases h with
  | refl => exact .refl _
  | tableSwitch h => exact h
  | lookupSwitch h => exact h

end Reordered

/-- Code whose instructions have their targets in another order. -/
def SameButOrder (code code' : List Located) : Prop :=
  List.Forall₂ (fun a b => b.offset = a.offset ∧ Reordered a.instruction b.instruction) code code'

section Order
variable {code' : List Located} (h : SameButOrder code code')
include h

theorem SameButOrder.symm : SameButOrder code' code :=
  h.flip.imp fun _ _ ⟨hoffset, hinstruction⟩ => ⟨hoffset.symm, hinstruction.symm⟩

theorem SameButOrder.getElem? {position : Nat} (hlocated : code[position]? = some located) :
    ∃ located', code'[position]? = some located' ∧ located'.offset = located.offset ∧
      Reordered located.instruction located'.instruction := by
  induction h generalizing position with
  | nil => cases hlocated
  | @cons a b _ _ head _ ih =>
    cases position with
    | zero =>
      cases hlocated
      exact ⟨b, rfl, head⟩
    | succ position => exact ih hlocated

theorem SameButOrder.map_offset : code'.map Located.offset = code.map Located.offset :=
  Forall₂.map_eq (h.imp fun _ _ => And.left)

theorem IsAt.reorder {position offset : Nat} (hat : IsAt code position offset) :
    IsAt code' position offset := by
  obtain ⟨located, hlocated, rfl⟩ := hat
  obtain ⟨located', hlocated', hoffset, -⟩ := h.getElem? hlocated
  exact ⟨located', hlocated', hoffset⟩

theorem Leads.reorder {position next : Nat} (hleads : Leads code position next) :
    Leads code' position next := by
  cases hleads with
  | jump hlocated htarget hnext =>
    obtain ⟨located', hlocated', -, hinstruction⟩ := h.getElem? hlocated
    exact .jump hlocated' (hinstruction.targets_perm.subset htarget) (hnext.reorder h)
  | fall hlocated hflow hnext =>
    obtain ⟨located', hlocated', -, hinstruction⟩ := h.getElem? hlocated
    refine .fall hlocated' ?_ (h.length_eq ▸ hnext)
    rw [Instruction.endsFlow, hinstruction.opcode_eq]
    exact hflow

theorem Reachable.reorder {starts' : List Nat} (hstarts : starts ⊆ starts') {position : Nat}
    (hreachable : Reachable code starts position) : Reachable code' starts' position := by
  induction hreachable with
  | entry => exact .entry
  | start hoffset hat => exact .start (hstarts hoffset) (hat.reorder h)
  | step _ hleads ih => exact ih.step (hleads.reorder h)

variable {seeds seeds' : List (Nat × UInt16)} (hseeds : seeds.Perm seeds') {depth : Nat → Nat}
include hseeds

theorem Consistent.reorder (hconsistent : Consistent pool code seeds depth) :
    Consistent pool code' seeds' depth := by
  refine ⟨hconsistent.entry, fun seed hseed => ?_, fun position located' hreachable hlocated' => ?_⟩
  · obtain ⟨position, hat, hdepth⟩ := hconsistent.seed seed (hseeds.mem_iff.2 hseed)
    exact ⟨position, hat.reorder h, hdepth⟩
  · obtain ⟨located, hlocated, -, hinstruction⟩ := h.symm.getElem? hlocated'
    have hold := hreachable.reorder h.symm (hseeds.symm.map Prod.fst).subset
    obtain ⟨effect, heffect, hpops, hbound, htargets, hfall⟩ :=
      hconsistent.flow position located hold hlocated
    rw [hinstruction.effect_eq] at heffect
    rw [Instruction.endsFlow, hinstruction.opcode_eq, h.length_eq] at hfall
    refine ⟨effect, heffect, hpops, hbound, fun target htarget => ?_, hfall⟩
    obtain ⟨next, hat, hdepth⟩ := htargets target (hinstruction.targets_perm.subset htarget)
    exact ⟨next, hat.reorder h, hdepth⟩

theorem depthsOf_subset : depthsOf pool code seeds depth ⊆ depthsOf pool code' seeds' depth := by
  rintro n ⟨position, located, effect, hreachable, hlocated, heffect, hdepth⟩
  obtain ⟨located', hlocated', -, hinstruction⟩ := h.getElem? hlocated
  rw [← hinstruction.effect_eq] at heffect
  exact ⟨position, located', effect, hreachable.reorder h (hseeds.map Prod.fst).subset, hlocated',
    heffect, hdepth⟩

end Order

theorem limit_reorder {code' : List Located} {handlers handlers' : List Handler}
    {entries entries' : List (Nat × UInt16)} {depth : Nat → Nat} {deepest : UInt16}
    (hcode : (code.map Located.offset).Nodup) (hne : code ≠ [])
    (hconsistent : Consistent pool code (seeds handlers entries) depth)
    (hlimit : limit pool code handlers entries = .ok deepest) (h : SameButOrder code code')
    (hhandlers : handlers.Perm handlers') (hentries : entries.Perm entries') :
    limit pool code' handlers' entries' = .ok deepest := by
  have hseeds : (seeds handlers entries).Perm (seeds handlers' entries') :=
    (hhandlers.map _).append hentries
  have hcode' : (code'.map Located.offset).Nodup := by rwa [h.map_offset]
  have hne' : code' ≠ [] := by
    rintro rfl
    exact hne (List.forall₂_nil_right_iff.1 h)
  have hconsistent' := hconsistent.reorder h hseeds
  obtain ⟨deepest', hlimit'⟩ := hconsistent'.exists_limit hcode' hne'
  have hgreatest' := hconsistent'.isGreatest hcode' hne' hlimit'
  rw [← (depthsOf_subset h hseeds).antisymm (depthsOf_subset h.symm hseeds.symm)] at hgreatest'
  have hsame := (hconsistent.isGreatest hcode hne hlimit).unique hgreatest'
  rw [hlimit', UInt16.toNat_inj.1 hsame]

/-- Where depths agree on all ways to each instruction, the search finds the greatest of them,
whatever the order of handlers, further entries and targets. And a search that ends well has
visited each instruction that control can come to exactly once, at the depth that it was found at.
The limit is not below that depth. It is not below the depth behind the instruction either, just
where that depth is below 65536: a greater one is counted from zero again. -/
theorem limit_exact (pool : Pool) (code : List Located) (handlers : List Handler)
    (entries : List (Nat × UInt16)) (hcode : (code.map Located.offset).Nodup) (hne : code ≠ []) :
    (∀ depth, Consistent pool code (seeds handlers entries) depth →
      ∃ deepest, limit pool code handlers entries = .ok deepest ∧
        IsGreatest (depthsOf pool code (seeds handlers entries) depth) deepest.toNat ∧
        ∀ code' handlers' entries', SameButOrder code code' → handlers.Perm handlers' →
          entries.Perm entries' → limit pool code' handlers' entries' = .ok deepest) ∧
    ∀ deepest, limit pool code handlers entries = .ok deepest →
      ∃ first visits last,
        ((Search.blank code).reach 0 0).reachAll (OffsetIndex.ofCode code)
          (seeds handlers entries) = .ok first ∧
        Run pool code first visits last ∧ last.pending = [] ∧
        (visits.map Visit.position).Nodup ∧
        (∀ position, position ∈ visits.map Visit.position ↔
          Reachable code ((seeds handlers entries).map Prod.fst) position) ∧
        ∀ visit ∈ visits, last.depth? visit.position = some visit.before ∧
          (∃ located, code[visit.position]? = some located ∧
            StackEffect.of pool located.instruction = .ok visit.effect) ∧
          visit.effect.pops ≤ visit.before ∧ visit.before ≤ deepest ∧ visit.after ≤ deepest ∧
          visit.after.toNat = visit.effect.apply visit.before.toNat % 65536 ∧
          (visit.effect.apply visit.before.toNat ≤ deepest.toNat ↔
            visit.effect.apply visit.before.toNat < 65536) := by
  constructor
  · intro depth hconsistent
    obtain ⟨deepest, hlimit⟩ := hconsistent.exists_limit hcode hne
    refine ⟨deepest, hlimit, hconsistent.isGreatest hcode hne hlimit, ?_⟩
    intro code' handlers' entries' horder hhandlers hentries
    exact limit_reorder hcode hne hconsistent hlimit horder hhandlers hentries
  · intro deepest hlimit
    obtain ⟨first, visits, last, hfirst, hrun, hpending, hlast, -, hbound⟩ :=
      exists_run_of_limit hcode hne hlimit
    refine ⟨first, visits, last, hfirst, hrun, hpending, ?_, fun position => ?_, ?_⟩
    · have hnodup := hlast.nodup
      rw [hpending, List.nil_append, List.map_reverse] at hnodup
      exact (List.reverse_perm _).nodup_iff.1 hnodup
    · rw [← hlast.mem_done_iff hpending, List.map_reverse, List.mem_reverse]
    · intro visit hvisit
      obtain ⟨hbefore, located, hlocated, heffect, hpops⟩ :=
        hlast.visited visit (List.mem_reverse.2 hvisit)
      have hafter : visit.after ≤ deepest :=
        UInt16.le_iff_toNat_le.2 (hbound (.inr ⟨visit, hvisit, .inr rfl⟩))
      exact ⟨hbefore, ⟨located, hlocated, heffect⟩, hpops,
        UInt16.le_iff_toNat_le.2 (hbound (.inr ⟨visit, hvisit, .inl rfl⟩)), hafter,
        Visit.toNat_after hpops, Visit.apply_le_iff hpops hafter⟩

/-- A branch over a return to another one, and a handler. -/
def forkCode : List Located :=
  [⟨0, .simple 0x03⟩, ⟨1, .branch 0x99 5⟩, ⟨4, .simple 0xb1⟩, ⟨5, .simple 0xb1⟩,
    ⟨6, .simple Opcode.athrow⟩]

/-- One slot in front of the branch and the handler. -/
def forkDepth (position : Nat) : Nat := if position = 1 ∨ position = 4 then 1 else 0

theorem consistent_fork :
    Consistent .empty forkCode (seeds [⟨0, 4, 6, 0⟩] [(5, 0)]) forkDepth := by
  refine ⟨rfl, ?_, fun position located _ hlocated => ?_⟩
  · simp only [seeds, List.map_cons, List.map_nil, List.cons_append, List.nil_append,
      List.forall_mem_cons]
    exact ⟨⟨4, ⟨_, rfl, rfl⟩, rfl⟩, ⟨3, ⟨_, rfl, rfl⟩, rfl⟩, nofun⟩
  · match position with
    | 0 =>
      cases hlocated
      exact ⟨⟨0, 1⟩, by decide +kernel, by decide, by decide, nofun, fun _ _ => rfl⟩
    | 1 =>
      cases hlocated
      refine ⟨⟨1, 0⟩, by decide +kernel, by decide, by decide, ?_, fun _ _ => rfl⟩
      exact List.forall_mem_singleton.2 ⟨3, ⟨_, rfl, rfl⟩, rfl⟩
    | 2 | 3 =>
      cases hlocated
      exact ⟨⟨0, 0⟩, by decide +kernel, by decide, by decide, nofun, by decide⟩
    | 4 =>
      cases hlocated
      exact ⟨⟨1, 0⟩, by decide +kernel, by decide, by decide, nofun, by decide⟩
    | _ + 5 => cases hlocated

/-- A return, and behind it a constant and another return. -/
def steepCode : List Located := [⟨0, .simple 0xb1⟩, ⟨1, .simple 0x03⟩, ⟨2, .simple 0xb1⟩]

theorem limit_exact_fork :
    ((forkCode.map Located.offset).Nodup ∧ forkCode ≠ [] ∧
      Consistent .empty forkCode (seeds [⟨0, 4, 6, 0⟩] [(5, 0)]) forkDepth ∧
      limit .empty forkCode [⟨0, 4, 6, 0⟩] [(5, 0)] = .ok 1 ∧
      IsGreatest (depthsOf .empty forkCode (seeds [⟨0, 4, 6, 0⟩] [(5, 0)]) forkDepth) 1 ∧
      ∃ visits : List Visit, (visits.map Visit.position).Nodup ∧ ∀ position,
        position ∈ visits.map Visit.position ↔ Reachable forkCode [6, 5] position) ∧
    limit .empty steepCode [] [(1, 65535)] = .ok 65535 ∧
      ∃ visit : Visit, visit.position = 1 ∧ visit.before = 65535 ∧
        ¬ visit.effect.apply visit.before.toNat ≤ 65535 := by
  constructor
  · have hcode : (forkCode.map Located.offset).Nodup := by decide
    have hne : forkCode ≠ [] := by decide
    have hlimit : limit .empty forkCode [⟨0, 4, 6, 0⟩] [(5, 0)] = .ok 1 := by decide +kernel
    obtain ⟨hexact, hvisits⟩ :=
      limit_exact .empty forkCode [⟨0, 4, 6, 0⟩] [(5, 0)] hcode hne
    obtain ⟨deepest, hdeepest, hgreatest, -⟩ := hexact forkDepth consistent_fork
    cases hlimit.symm.trans hdeepest
    obtain ⟨first, visits, last, -, -, -, hnodup, hreachable, -⟩ := hvisits 1 hlimit
    exact ⟨hcode, hne, consistent_fork, hlimit, hgreatest, visits, hnodup, hreachable⟩
  · have hcode : (steepCode.map Located.offset).Nodup := by decide
    have hlimit : limit .empty steepCode [] [(1, 65535)] = .ok 65535 := by decide +kernel
    obtain ⟨-, hvisits⟩ := limit_exact .empty steepCode [] [(1, 65535)] hcode (by decide)
    obtain ⟨first, visits, last, hfirst, hrun, -, -, hreachable, hall⟩ := hvisits 65535 hlimit
    obtain ⟨visit, hvisit, hposition⟩ := List.mem_map.1 ((hreachable 1).2
      (.start List.mem_cons_self ⟨_, rfl, rfl⟩))
    obtain ⟨hbefore, ⟨located, hlocated, heffect⟩, -, -, -, -, hbound⟩ := hall visit hvisit
    rw [hposition] at hbefore hlocated
    have hdepth : visit.before = 65535 := by
      cases hfirst
      exact (Option.some.inj ((hrun.keeps hcode rfl).symm.trans hbefore)).symm
    obtain rfl : (⟨1, .simple 0x03⟩ : Located) = located := Option.some.inj hlocated
    have heffect : visit.effect = ⟨0, 1⟩ := by
      have hpush : StackEffect.of .empty (.simple 0x03) = .ok ⟨0, 1⟩ := by decide +kernel
      exact Except.ok.inj (heffect.symm.trans hpush)
    have happly : visit.effect.apply visit.before.toNat = 65536 := by rw [heffect, hdepth]; rfl
    exact ⟨hlimit, visit, hposition, hdepth, mt hbound.1 (by simp [happly])⟩

end StackDepth

end Embargo
