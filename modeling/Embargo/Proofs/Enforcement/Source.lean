import Embargo.Enforcement.Method
import Embargo.Proofs.Code.FrameTable

/-!
What the attributes of a body say about its frames.
-/
namespace Embargo.Source
variable {method : MethodInfo} {body : Body} {pool : Pool} {source : Source}

/-- The first stack map table among attributes. -/
def table? (named : List (String × Attribute)) : Option Attribute :=
  (named.find? fun (name, _) => name = stackMapTable).map Prod.snd

/-- The frames are those of the first table, read behind the locals on entry. -/
theorem of_eq_ok_iff : of method body pool = .ok source ↔
    (∃ names, body.attributes.mapM (fun a => pool.utf8 a.name) = .ok names ∧
      source.named = names.zip body.attributes) ∧
    Frame.initialLocals method.className method.name method.descriptor method.isStatic
      = .ok source.initial ∧
    source.hasTable = (table? source.named).isSome ∧
    match table? source.named with
    | some a => FrameTable.decode pool source.initial a.payload = .ok source.frames
    | none => source.frames = [] := by
  unfold of
  simp only [Except.bind_eq_ok_iff]
  constructor
  · rintro ⟨names, hnames, initial, hinitial, h⟩
    change (match table? (names.zip body.attributes) with | some a => _ | none => _) = _ at h
    cases htable : table? (names.zip body.attributes) with
    | none =>
      rw [htable] at h
      cases h
      exact ⟨⟨names, hnames, rfl⟩, hinitial, rfl, by rw [htable]⟩
    | some a =>
      rw [htable] at h
      obtain ⟨frames, hframes, h⟩ := Except.bind_eq_ok_iff.1 h
      cases h
      exact ⟨⟨names, hnames, rfl⟩, hinitial, rfl, by rw [htable]; exact hframes⟩
  · obtain ⟨named, initial, hasTable, frames⟩ := source
    dsimp only
    rintro ⟨⟨names, hnames, rfl⟩, hinitial, rfl, hframes⟩
    refine ⟨names, hnames, initial, hinitial, ?_⟩
    change (match table? (names.zip body.attributes) with | some a => _ | none => _) = _
    cases htable : table? (names.zip body.attributes) with
    | none =>
      rw [htable] at hframes
      rw [hframes]
      change Except.ok (Source.mk _ _ (table? (names.zip body.attributes)).isSome _) = _
      rw [htable]
    | some a =>
      rw [htable] at hframes
      refine Except.bind_eq_ok_iff.2 ⟨frames, hframes, ?_⟩
      change Except.ok (Source.mk _ _ (table? (names.zip body.attributes)).isSome _) = _
      rw [htable]

/-- The frames name the classes that the pool and the locals on entry name. -/
theorem names_frames {P : String → Prop} (h : of method body pool = .ok source)
    (hclass : ∀ index name, pool.className index = .ok name → P name)
    (hinitial : ValueType.Names P source.initial) : ∀ frame ∈ source.frames, frame.Names P := by
  obtain ⟨-, -, -, hframes⟩ := of_eq_ok_iff.1 h
  split at hframes
  case h_1 => exact FrameTable.names_of_decode hclass hinitial hframes
  case h_2 =>
    rw [hframes]
    exact fun _ hframe => absurd hframe List.not_mem_nil

end Embargo.Source
