import Embargo.Proofs.Bytes.Reading

/-!
Readers that know where their data ends. What such a reader takes it takes whatever stands
behind, and where only a part of it is there the reader comes to the end of the data before
anything else can be wrong. Readings of parts delimit the whole, so that data that parses has
no shorter and no longer form.
-/
namespace Embargo
namespace Reader
variable {α β : Type}

/-- Some bytes are too few for a reader, which says where it was when they ran out. -/
def FallsShort (reader : Reader α) (position : Nat) (bytes : List UInt8) : Prop :=
  ∃ stop, position ≤ stop ∧ stop ≤ position + bytes.length ∧
    (reader.run ⟨position, bytes⟩).1 = .error (.unexpectedEnd stop)

namespace FallsShort
variable {reader : Reader α} {next : α → Reader β} {position : Nat} {bytes cut : List UInt8}

theorem bind (h : FallsShort reader position cut) :
    FallsShort (reader >>= next) position cut := by
  obtain ⟨stop, hle, hlt, hrun⟩ := h
  refine ⟨stop, hle, hlt, ?_⟩
  rw [Attempt.run_bind]
  rcases hstep : reader.run ⟨position, cut⟩ with ⟨fault | a, middle⟩
  · rw [hstep] at hrun
    cases hrun
    rfl
  · rw [hstep] at hrun
    cases hrun

/-- The first step has all that it needs. -/
theorem behind {a : α} (hfirst : Reads reader position bytes a)
    (h : FallsShort (next a) (position + bytes.length) cut) :
    FallsShort (reader >>= next) position (bytes ++ cut) := by
  obtain ⟨stop, hle, hlt, hrun⟩ := h
  refine ⟨stop, by omega, by rw [List.length_append]; omega, ?_⟩
  rw [Attempt.run_bind, hfirst]
  exact hrun

end FallsShort

/-- The bytes that a reader takes have their end in themselves. -/
def Delimits (reader : Reader α) : Prop :=
  ∀ cursor value next, reader.run cursor = (.ok value, next) → ∃ bytes,
    cursor.rest = bytes ++ next.rest ∧ Reads reader cursor.position bytes value ∧
      ∀ cut, cut <+: bytes → cut ≠ bytes → FallsShort reader cursor.position cut

/-- Two parts are cut either inside the first or behind all of it. -/
theorem exists_of_prefix_append {front back cut : List UInt8} (h : cut <+: front ++ back)
    (hne : cut ≠ front ++ back) :
    (cut <+: front ∧ cut ≠ front) ∨ ∃ more, cut = front ++ more ∧ more <+: back ∧ more ≠ back := by
  by_cases hcut : front <+: cut
  · obtain ⟨more, rfl⟩ := hcut
    refine .inr ⟨more, rfl, (List.prefix_append_right_inj front).1 h, ?_⟩
    rintro rfl
    exact hne rfl
  · have hfront : front <+: front ++ back := List.prefix_append front back
    refine .inl ⟨(List.prefix_or_prefix_of_prefix h hfront).resolve_right hcut, ?_⟩
    rintro rfl
    exact hcut List.prefix_rfl

namespace Delimits
variable {reader : Reader α}

protected theorem pure (a : α) : Delimits (pure a) := by
  intro cursor value next hrun
  cases hrun
  refine ⟨[], rfl, .pure, fun cut hcut hne => ?_⟩
  exact absurd (List.prefix_nil.1 hcut) hne

protected theorem throw (fault : Fault) : Delimits (throw fault : Reader α) :=
  fun _ _ _ hrun => nomatch hrun

protected theorem bind {next : α → Reader β} (h : Delimits reader)
    (hnext : ∀ a, Delimits (next a)) : Delimits (reader >>= next) := by
  intro cursor value last hrun
  obtain ⟨a, middle, ha, hb⟩ := Attempt.run_bind_eq_ok_iff.1 hrun
  obtain ⟨front, hfront, hreads, hshort⟩ := h _ _ _ ha
  have hmiddle : middle.position = cursor.position + front.length := by
    have hsame := hreads middle.rest
    rw [← hfront] at hsame
    exact congrArg (fun outcome => outcome.2.position) (ha.symm.trans hsame)
  obtain ⟨back, hback, hreads', hshort'⟩ := hnext a _ _ _ hb
  rw [hmiddle] at hreads' hshort'
  refine ⟨front ++ back, by rw [hfront, hback, List.append_assoc], hreads.bind hreads',
    fun cut hcut hne => ?_⟩
  rcases exists_of_prefix_append hcut hne with ⟨hcut, hne⟩ | ⟨more, rfl, hmore, hne⟩
  · exact (hshort cut hcut hne).bind
  · exact .behind hreads (hshort' more hmore hne)

/-- A last step that takes no bytes. -/
protected theorem map {f : α → β} (h : Delimits reader) :
    Delimits (reader >>= fun a => pure (f a)) :=
  h.bind fun a => .pure (f a)

theorem throw_bind (fault : Fault) (next : α → Reader β) :
    Delimits ((throw fault : Reader α) >>= next) :=
  fun _ _ _ hrun => nomatch hrun

/-- A reader of values that are all written with as many bytes. -/
theorem of_size {write : α → List UInt8} {size : Nat}
    (htakes : Takes reader fun bytes value => bytes = write value)
    (hreads : ∀ position value, Reads reader position (write value) value)
    (hsize : ∀ value, (write value).length = size)
    (hshort : ∀ position rest, rest.length < size →
      (reader.run ⟨position, rest⟩).1 = .error (.unexpectedEnd position)) :
    Delimits reader := by
  intro cursor value next hrun
  obtain ⟨_, hrest, -, rfl⟩ := htakes _ _ _ hrun
  refine ⟨write value, hrest, hreads _ value, fun cut hcut hne => ?_⟩
  have hlt : cut.length < size := by
    rw [← hsize value]
    exact Nat.lt_of_le_of_ne hcut.length_le fun hlength => hne (hcut.eq_of_length hlength)
  exact ⟨cursor.position, Nat.le_refl _, Nat.le_add_right _ _, hshort _ cut hlt⟩

end Delimits

theorem delimits_u8 : Delimits u8 := by
  refine .of_size takes_u8 reads_u8 (fun _ => rfl) fun position rest hlt => ?_
  rw [List.eq_nil_of_length_eq_zero (Nat.lt_one_iff.1 hlt)]
  rfl

theorem delimits_u16 : Delimits u16 := by
  refine .of_size takes_u16 reads_u16 Bytes.length_u16 fun position rest hlt => ?_
  match rest, hlt with
  | [], _ => rfl
  | [_], _ => rfl

theorem delimits_u32 : Delimits u32 := by
  refine .of_size takes_u32 reads_u32 Bytes.length_u32 fun position rest hlt => ?_
  match rest, hlt with
  | [], _ => rfl
  | [_], _ => rfl
  | [_, _], _ => rfl
  | [_, _, _], _ => rfl

theorem delimits_i32 : Delimits i32 := delimits_u32.map

theorem delimits_u64 : Delimits u64 := delimits_u32.bind fun _ => delimits_u32.map

theorem delimits_bytes (n : Nat) : Delimits (bytes n) := by
  intro cursor value next hrun
  obtain ⟨value, hrest, -, rfl, rfl⟩ := takes_bytes n _ _ _ hrun
  refine ⟨value, hrest, reads_bytes _ value, fun cut hcut hne => ?_⟩
  have hlt : cut.length ≠ value.length := fun hlength => hne (hcut.eq_of_length hlength)
  refine ⟨cursor.position, Nat.le_refl _, Nat.le_add_right _ _, ?_⟩
  change (if (cut.take value.length).length = value.length then _ else _ : _ × _).1 = _
  rw [if_neg (by rwa [List.take_of_length_le hcut.length_le])]

/-- Items in a row, as many as are asked for. -/
theorem delimits_manyOnto {item : Reader α} (h : Delimits item) (n : Nat) (done : List α) :
    Delimits (manyOnto item n done) := by
  induction n generalizing done with
  | zero => exact .pure done.reverse
  | succ n ih =>
    have hstep : (manyOnto item (n + 1) done : Reader (List α)) =
        item >>= fun value => manyOnto item n (value :: done) := by
      funext cursor
      refine Eq.trans ?_ (Attempt.run_bind item _ cursor).symm
      rw [manyOnto]
      rcases item.run cursor with ⟨fault | value, next⟩ <;> rfl
    rw [hstep]
    exact h.bind fun value => ih (value :: done)

theorem delimits_counted {item : Reader α} (h : Delimits item) : Delimits (counted item) :=
  delimits_u16.bind fun count => delimits_manyOnto h count.toNat []

/-- Data in which a value is found. No shorter data starts in the same way and holds a value,
nor any longer data, and what is wrong with them is told for what it is. -/
structure Delimited (parse : List UInt8 → Except Fault α) (data : List UInt8) : Prop where
  cut : ∀ front, front <+: data → front ≠ data →
    ∃ stop ≤ front.length, parse front = .error (.unexpectedEnd stop)
  padded : ∀ more, more ≠ [] → parse (data ++ more) = .error (.trailingBytes more.length)

theorem Delimits.delimited {reader : Reader α} {data : List UInt8} {value : α}
    (h : Delimits reader) (hparse : Reader.parse reader data = .ok value) :
    Delimited (Reader.parse reader) data := by
  obtain ⟨last, hread, hempty⟩ := exists_run_of_parse hparse
  obtain ⟨bytes, hbytes, hreads, hshort⟩ := h _ _ _ hread
  rw [hempty, List.append_nil] at hbytes
  subst hbytes
  constructor
  case cut =>
    intro front hfront hne
    have hwhole : FallsShort (do let value ← reader; finish; return value) 0 front :=
      (hshort front hfront hne).bind
    obtain ⟨stop, -, hstop, hrun⟩ := hwhole
    exact ⟨stop, by simpa using hstop, hrun⟩
  case padded =>
    intro more hmore
    have hfinish : (finish : Reader Unit).run ⟨0 + data.length, more⟩
        = (.error (.trailingBytes more.length), ⟨0 + data.length, more⟩) :=
      if_neg (by rwa [List.isEmpty_iff])
    have hrun : reader.run (Cursor.start (data ++ more)) =
        (.ok value, ⟨0 + data.length, more⟩) := hreads more
    simp only [Reader.parse, Attempt.run_bind, hrun, hfinish]

end Reader

end Embargo
