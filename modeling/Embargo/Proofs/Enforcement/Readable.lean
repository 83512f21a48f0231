import Embargo.Proofs.ClassFile.Parsed
import Embargo.Proofs.Code.Descriptor
import Embargo.Proofs.Enforcement.Completeness
import Embargo.Proofs.Enforcement.Source

/-!
Reading back what an enforcement wrote. The writer stores the length of a text in 16 bits
without a check, so the new class reads back exactly if the name of the exception and all
messages are short enough. No other text that is added can be too long.
-/
namespace Embargo
open Text

/-- The length of a text fits the 16 bits that the file has for it. -/
def Short (text : String) : Prop := (ModifiedUtf8.encode text).length < 65536

instance (text : String) : Decidable (Short text) :=
  inferInstanceAs (Decidable ((ModifiedUtf8.encode text).length < 65536))

namespace Pool
variable {pool : Pool} {index : UInt16} {text : String}

theorem short_of_utf8 (hfits : pool.Fits) (h : pool.utf8 index = .ok text) : Short text := by
  obtain ⟨constant, hget, hrole⟩ := Except.bind_eq_ok_iff.1 h
  cases constant with
  | utf8 bytes =>
    have hsize := ModifiedUtf8.size_le_of_decode hrole
    have hbytes := hfits bytes (mem_of_get hget)
    rw [Short, ModifiedUtf8.length_encode]
    omega
  | _ => cases hrole

theorem short_of_className (hfits : pool.Fits) (h : pool.className index = .ok text) :
    Short text := by
  obtain ⟨constant, hget, hrole⟩ := Except.bind_eq_ok_iff.1 h
  cases constant with
  | classRef name => exact short_of_utf8 hfits hrole
  | _ => cases hrole

theorem Holds.short (h : pool.Holds text) (hfits : pool.Fits) : Short text :=
  hfits _ h

/-- A pool that only short texts come into stays short. -/
theorem Growth.fits {new : Pool} (h : Growth Short pool new) (hfits : pool.Fits) : new.Fits := by
  intro bytes hbytes
  rcases h.texts bytes hbytes with hold | ⟨text, htext, rfl⟩
  · exact hfits bytes hold
  · exact htext

end Pool

theorem Short.of_infix {text part : String} (h : Short text)
    (hpart : part.toList <:+: text.toList) : Short part := by
  obtain ⟨front, back, heq⟩ := hpart
  rw [Short, ModifiedUtf8.length_encode, ← heq] at h
  rw [Short, ModifiedUtf8.length_encode]
  simp only [ModifiedUtf8.size_append] at h
  omega

theorem Frame.names_initialLocals {className methodName descriptor : String} {isStatic : Bool}
    {initial : List ValueType} (hclass : Short className) (hdescriptor : Short descriptor)
    (h : initialLocals className methodName descriptor isStatic = .ok initial) :
    ValueType.Names Short initial := by
  obtain ⟨⟨parameters, result⟩, hparse, hpure⟩ := Except.bind_eq_ok_iff.1 h
  cases hpure
  intro name hname
  rcases List.mem_append.1 hname with hreceiver | hparameter
  · split at hreceiver
    · exact absurd hreceiver List.not_mem_nil
    · have heq := List.mem_singleton.1 hreceiver
      unfold receiver at heq
      split at heq
      · cases heq
      · cases heq
        exact hclass
  · obtain ⟨type, htype, heq⟩ := List.mem_map.1 hparameter
    cases type with
    | reference found =>
      cases heq
      exact hdescriptor.of_infix (Descriptor.namedIn_of_parseMethod hparse _ htype _ rfl)
    | _ => cases heq

namespace Revision
variable {rule : Rule} {method : MethodInfo} {body new : Body} {pool newPool : Pool}
  (r : Revision rule method body pool new newPool)
include r

theorem mem_uses_iff {site : Site} :
    site ∈ rule.uses pool r.old ↔ ∃ marked ∈ r.marked, marked.site = some site := by
  rw [← Marked.sites_eq r.marked_eq (Pool.Growth.refl (P := fun _ => True) pool), Marked.sites,
    List.mem_filterMap]

/-- Where the exception and the messages are short, only short texts are added. -/
theorem growth_short (hfits : pool.Fits) (hclass : Short method.className)
    (hdescriptor : Short method.descriptor) (hexception : Short rule.exception)
    (hmessages : ∀ site ∈ rule.uses pool r.old, Short (rule.message site.access site.member)) :
    Pool.Growth Short pool newPool := by
  have hname : Short "<init>" := by decide +kernel
  have htype : Short "(Ljava/lang/String;)V" := by decide +kernel
  exact r.growth {
    words := ⟨hexception, hname, htype⟩
    messages := fun marked hmarked site hsite =>
      hmessages site (r.mem_uses_iff.2 ⟨marked, hmarked, hsite⟩)
    frames := Source.names_frames r.source_eq (fun _ _ => Pool.short_of_className hfits)
      (Frame.names_initialLocals hclass hdescriptor (Source.of_eq_ok_iff.1 r.source_eq).2.1)
    throwable := by decide +kernel
    stackMapTable := by decide +kernel }

end Revision

namespace Rule
variable {rule : Rule} {className : String} {stackMaps : Bool} {method : Member} {pool : Pool}

/-- An enforcement on a method counts the uses in its code. Without any the pool stays as it
is, and with some the method is revised. -/
theorem revision_of_enforceMember {counts : SiteCounts}
    (h : (rule.enforceMember className stackMaps method pool).result = .ok counts) :
    counts = SiteCounts.of (rule.uses pool (method.code pool)) ∧
      (rule.uses pool (method.code pool) = [] ∧
          (rule.enforceMember className stackMaps method pool).pool = pool ∨
        ∃ info body new, ∃ r : Revision rule info body pool new
            (rule.enforceMember className stackMaps method pool).pool,
          info.className = className ∧ pool.utf8 method.descriptor = .ok info.descriptor ∧
          method.code pool = r.old) := by
  have houtcome := enforcesMember_of_eq_ok h
  generalize rule.enforceMember className stackMaps method pool = outcome at h houtcome ⊢
  cases houtcome with
  | absent hfind =>
    cases h
    rw [Member.code, hfind]
    exact ⟨rfl, .inl ⟨rfl, rfl⟩⟩
  | clean read hclean =>
    cases h
    have huses : rule.uses pool (method.code pool) = [] := by
      rw [read.member_code]
      exact Marked.uses_eq_nil hclean
    rw [huses]
    exact ⟨rfl, .inl ⟨rfl, rfl⟩⟩
  | revised read r =>
    cases h
    have hcode : method.code pool = r.old := read.member_code.trans (old_eq_code read r).symm
    have hsites := Marked.sites_eq r.marked_eq (Pool.Growth.refl (P := fun _ => True) pool)
    refine ⟨?_, .inr ⟨_, _, _, r, rfl, read.descriptor_eq, hcode⟩⟩
    rw [hcode, ← hsites]
    rfl

/-- Where the exception and the messages are short, an enforcement adds only short texts. -/
theorem growth_short_of_enforceMember {counts : SiteCounts} (hfits : pool.Fits)
    (hclass : Short className) (hexception : Short rule.exception)
    (hmessages : ∀ site ∈ rule.uses pool (method.code pool),
      Short (rule.message site.access site.member))
    (h : (rule.enforceMember className stackMaps method pool).result = .ok counts) :
    Pool.Growth Short pool (rule.enforceMember className stackMaps method pool).pool := by
  obtain ⟨-, ⟨-, hsame⟩ | ⟨info, body, new, r, rfl, hdescriptor, hcode⟩⟩ :=
    revision_of_enforceMember h
  · rw [hsame]
    exact .refl pool
  · rw [hcode] at hmessages
    exact r.growth_short hfits hclass (Pool.short_of_utf8 hfits hdescriptor) hexception hmessages

/-- The pool behind an enforcement has the texts of every use. -/
theorem holds_of_enforceMember {counts : SiteCounts} (hpool : pool.WellFormed)
    (h : (rule.enforceMember className stackMaps method pool).result = .ok counts) :
    ∀ site ∈ rule.uses pool (method.code pool),
      (rule.enforceMember className stackMaps method pool).pool.Holds rule.exception ∧
      (rule.enforceMember className stackMaps method pool).pool.Holds
        (rule.message site.access site.member) := by
  intro site hsite
  obtain ⟨-, ⟨hnil, -⟩ | ⟨info, body, new, r, -, -, hcode⟩⟩ := revision_of_enforceMember h
  · rw [hnil] at hsite
    exact absurd hsite List.not_mem_nil
  · rw [hcode] at hsite
    obtain ⟨marked, hmarked, heq⟩ := r.mem_uses_iff.1 hsite
    exact r.holds hpool hmarked heq

/-- The sites that an enforcement finds in methods, each read in the pool that the ones in
front of it leave. -/
def sitesOnto (rule : Rule) (className : String) (stackMaps : Bool) : List Member → Pool → List Site
  | [], _ => []
  | method :: rest, pool => rule.uses pool (method.code pool)
    ++ sitesOnto rule className stackMaps rest
      (rule.enforceMember className stackMaps method pool).pool

/-- The sites that an enforcement finds in a class. -/
def sites (rule : Rule) (c : ClassFile) : List Site :=
  match c.name with
  | .ok className => rule.sitesOnto className c.usesStackMaps c.methods c.pool
  | .error _ => []

section Run
variable {methods : List Member} {outcomes : List (SiteCounts × Member)} {new : Pool}

theorem counts_of_runEach
    (hrun : Attempt.RunEach (rule.memberStep className stackMaps) methods pool outcomes new)
    (start : SiteCounts) : (outcomes.map Prod.fst).foldl SiteCounts.add start
      = start.add (SiteCounts.of (rule.sitesOnto className stackMaps methods pool)) := by
  induction hrun generalizing start with
  | nil => rfl
  | @cons method methods outcome outcomes pool middle new head _ ih =>
    obtain ⟨counts, after⟩ := outcome
    have hmember := memberStep_eq_ok head
    obtain ⟨hcounts, -⟩ := revision_of_enforceMember (congrArg MemberOutcome.result hmember)
    rw [List.map_cons, List.foldl_cons, ih, hcounts, sitesOnto, hmember, SiteCounts.of_append,
      SiteCounts.add_assoc]

/-- Short texts in, short texts out. -/
theorem fits_of_runEach (hfits : pool.Fits) (hclass : Short className)
    (hexception : Short rule.exception)
    (hmessages : ∀ site ∈ rule.sitesOnto className stackMaps methods pool,
      Short (rule.message site.access site.member))
    (hrun : Attempt.RunEach (rule.memberStep className stackMaps) methods pool outcomes new) :
    new.Fits := by
  induction hrun with
  | nil => exact hfits
  | @cons method methods outcome outcomes pool middle new head _ ih =>
    obtain ⟨counts, after⟩ := outcome
    have hmember := memberStep_eq_ok head
    rw [sitesOnto, hmember, List.forall_mem_append] at hmessages
    have hgrowth := growth_short_of_enforceMember hfits hclass hexception hmessages.1
      (congrArg MemberOutcome.result hmember)
    rw [hmember] at hgrowth
    exact ih (hgrowth.fits hfits) hmessages.2

/-- The last pool has the texts of every site. -/
theorem holds_of_runEach (hpool : pool.WellFormed)
    (hrun : Attempt.RunEach (rule.memberStep className stackMaps) methods pool outcomes new) :
    Pool.Growth (fun _ => True) pool new ∧
      ∀ site ∈ rule.sitesOnto className stackMaps methods pool,
        new.Holds rule.exception ∧ new.Holds (rule.message site.access site.member) := by
  induction hrun with
  | nil => exact ⟨.refl _, fun _ hsite => absurd hsite List.not_mem_nil⟩
  | @cons method methods outcome outcomes pool middle new head _ ih =>
    obtain ⟨counts, after⟩ := outcome
    have hmember := memberStep_eq_ok head
    have hresult := congrArg MemberOutcome.result hmember
    have hgrowth := rule.growth_enforceMember className stackMaps method pool
    have hholds := holds_of_enforceMember hpool hresult
    rw [hmember] at hgrowth hholds
    obtain ⟨hrest, htail⟩ := ih (hgrowth.wellFormed hpool)
    refine ⟨hgrowth.trans hrest, ?_⟩
    rw [sitesOnto, hmember, List.forall_mem_append]
    refine ⟨fun site hsite => ?_, htail⟩
    obtain ⟨hexception, hmessage⟩ := hholds site hsite
    exact ⟨hrest.holds hexception, hrest.holds hmessage⟩

end Run

/-- New bytes are there if and only if there are sites. -/
theorem enforceBytes_eq_ok {data bytes : List UInt8} {enforced : EnforcedClass}
    (h : rule.enforceBytes data = .ok enforced) (hbytes : enforced.bytes = some bytes) :
    ∃ c, ClassFile.parse data = .ok c ∧ (rule.enforce c).result = .ok enforced.counts ∧
      enforced.counts.total ≠ 0 ∧ (rule.enforce c).classFile.toBytes = .ok bytes := by
  obtain ⟨c, hparse, h⟩ := Except.bind_eq_ok_iff.1 h
  obtain ⟨className, -, h⟩ := Except.bind_eq_ok_iff.1 h
  obtain ⟨counts, hcounts, h⟩ := Except.bind_eq_ok_iff.1 h
  split at h
  case isTrue =>
    cases h
    cases hbytes
  case isFalse htotal =>
    obtain ⟨written, hwritten, h⟩ := Except.bind_eq_ok_iff.1 h
    cases h
    cases hbytes
    exact ⟨c, hparse, hcounts, htotal, hwritten⟩

/-- What an enforcement writes reads back as the class that was written exactly if the name
of the exception and the messages of all sites are short. -/
theorem parse_enforceBytes_iff {data bytes : List UInt8} {enforced : EnforcedClass}
    (h : rule.enforceBytes data = .ok enforced) (hbytes : enforced.bytes = some bytes)
    (hlength : bytes.length < 4294967296) :
    ∃ c, ClassFile.parse data = .ok c ∧ (rule.enforce c).classFile.toBytes = .ok bytes ∧
      enforced.counts = SiteCounts.of (rule.sites c) ∧
      (ClassFile.parse bytes = .ok (rule.enforce c).classFile ↔ Short rule.exception ∧
        ∀ site ∈ rule.sites c, Short (rule.message site.access site.member)) := by
  obtain ⟨c, hparse, hresult, htotal, hwritten⟩ := enforceBytes_eq_ok h hbytes
  obtain ⟨hpool, hfits⟩ := ClassFile.pool_of_parse hparse
  refine ⟨c, hparse, hwritten, ?_⟩
  obtain hconcerns | ⟨className, outcomes, new, hname, hrun, hcounts, heq⟩ := enforce_eq_ok hresult
  · rw [enforce_of_not_concerns hconcerns] at hresult
    rw [← Except.ok.inj hresult] at htotal
    exact absurd rfl htotal
  · have hsites : rule.sites c = rule.sitesOnto className c.usesStackMaps c.methods c.pool := by
      rw [sites, hname]
    obtain ⟨hgrowth, hholds⟩ := holds_of_runEach hpool hrun
    have hof : enforced.counts = SiteCounts.of (rule.sites c) := by
      rw [hcounts, counts_of_runEach hrun, SiteCounts.zero_add, hsites]
    refine ⟨hof, ?_⟩
    rw [heq] at hwritten ⊢
    rw [← hsites] at hholds
    constructor
    · intro hback
      have hnewFits := (ClassFile.pool_of_parse hback).2
      refine ⟨?_, fun site hsite => (hholds site hsite).2.short hnewFits⟩
      -- some site is there, and it has the name of the exception
      rw [hof, SiteCounts.total_of] at htotal
      obtain ⟨site, hsite⟩ := List.exists_mem_of_length_pos (Nat.pos_of_ne_zero htotal)
      exact (hholds site hsite).1.short hnewFits
    · rintro ⟨hexception, hmessages⟩
      rw [hsites] at hmessages
      have hnewFits := fits_of_runEach hfits (Pool.short_of_className hfits hname) hexception
        hmessages hrun
      exact ClassFile.parse_toBytes (hgrowth.wellFormed hpool)
        (ClassFile.fits_of_toBytes hnewFits hwritten hlength) (hgrowth.className_eq hname) hwritten

end Rule

/-- The file of the class with one call under an embargo. -/
def beepBytes : List UInt8 := beepClass.toBytes.toOption.getD []

theorem Rule.parse_enforceBytes_beep : ∃ enforced bytes,
    beepRule.enforceBytes beepBytes = .ok enforced ∧ enforced.bytes = some bytes ∧
      bytes.length < 4294967296 ∧ enforced.counts = ⟨1, 0⟩ ∧
      ClassFile.parse bytes = .ok (beepRule.enforce beepClass).classFile := by
  have hparse : ClassFile.parse beepBytes = .ok beepClass := by decide +kernel
  have hsome : ((beepRule.enforceBytes beepBytes).toOption.bind EnforcedClass.bytes).any
      (·.length < 4294967296) = true := by
    decide +kernel
  cases hrun : beepRule.enforceBytes beepBytes with
  | error fault =>
    rw [hrun] at hsome
    cases hsome
  | ok enforced =>
    rw [hrun] at hsome
    cases hbytes : enforced.bytes with
    | none => simp [Except.toOption, hbytes] at hsome
    | some bytes =>
      have hlength : bytes.length < 4294967296 := by simpa [Except.toOption, hbytes] using hsome
      obtain ⟨c, hc, -, hcounts, hback⟩ := Rule.parse_enforceBytes_iff hrun hbytes hlength
      obtain rfl : c = beepClass := Except.ok.inj (hc.symm.trans hparse)
      refine ⟨enforced, bytes, rfl, hbytes, hlength, ?_, hback.2 ?_⟩
      · rw [hcounts]
        decide +kernel
      · decide +kernel

end Embargo
