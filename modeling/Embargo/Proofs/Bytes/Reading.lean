import Embargo.Bytes.Output
import Embargo.Bytes.Reader
import Embargo.Proofs.Attempt
import Mathlib.Data.List.Forall2
import Mathlib.Tactic.Common

/-!
Reading back what was written. `Reads` says that a reader takes exactly some bytes
and nothing of what stands behind them, so that readings of parts make up the
reading of the whole. `Matches` compares two readers on the same bytes.
-/
namespace Embargo
variable {α β : Type}

namespace Bytes

/-- What can be checked for each of the 256 bytes. -/
theorem forall_of_fin {P : UInt8 → Prop} (h : ∀ n : Fin 256, P (UInt8.ofFin n)) (b : UInt8) :
    P b := by
  have hb := h b.toFin
  rwa [UInt8.ofFin_toFin] at hb

theorem join_u16 (v : UInt16) :
    (v >>> 8).toUInt8.toUInt16 <<< 8 ||| v.toUInt8.toUInt16 = v := by
  apply UInt16.eq_of_toBitVec_eq
  apply BitVec.eq_of_getLsbD_eq
  intro i hi
  simp [-UInt16.toUInt16_toUInt8]
  grind

theorem join_u32 (v : UInt32) :
    (v >>> 24).toUInt8.toUInt32 <<< 24 ||| (v >>> 16).toUInt8.toUInt32 <<< 16
      ||| (v >>> 8).toUInt8.toUInt32 <<< 8 ||| v.toUInt8.toUInt32 = v := by
  apply UInt32.eq_of_toBitVec_eq
  apply BitVec.eq_of_getLsbD_eq
  intro i hi
  simp [-UInt32.toUInt32_toUInt8]
  grind

theorem join_u64 (v : UInt64) :
    (v >>> 32).toUInt32.toUInt64 <<< 32 ||| v.toUInt32.toUInt64 = v := by
  apply UInt64.eq_of_toBitVec_eq
  apply BitVec.eq_of_getLsbD_eq
  intro i hi
  simp [-UInt64.toUInt64_toUInt32]
  grind

theorem split_u16 (a b : UInt8) : u16 (a.toUInt16 <<< 8 ||| b.toUInt16) = [a, b] := by
  have hhigh : ((a.toUInt16 <<< 8 ||| b.toUInt16) >>> 8).toUInt8 = a := by
    apply UInt8.eq_of_toBitVec_eq
    apply BitVec.eq_of_getLsbD_eq
    intro i hi
    simp
    grind
  have hlow : (a.toUInt16 <<< 8 ||| b.toUInt16).toUInt8 = b := by
    apply UInt8.eq_of_toBitVec_eq
    apply BitVec.eq_of_getLsbD_eq
    intro i hi
    simp [hi]
  rw [u16, hhigh, hlow]

theorem split_u32 (a b c d : UInt8) :
    u32 (a.toUInt32 <<< 24 ||| b.toUInt32 <<< 16 ||| c.toUInt32 <<< 8 ||| d.toUInt32)
      = [a, b, c, d] := by
  have hbits (v w : UInt8) (h : ∀ i < 8, v.toBitVec.getLsbD i = w.toBitVec.getLsbD i) : v = w :=
    UInt8.eq_of_toBitVec_eq (BitVec.eq_of_getLsbD_eq h)
  simp only [u32, List.cons.injEq, and_true]
  refine ⟨hbits _ _ fun i hi => ?_, hbits _ _ fun i hi => ?_, hbits _ _ fun i hi => ?_,
    hbits _ _ fun i hi => ?_⟩
  · simp
    grind
  · simp
    grind
  · simp
    grind
  · simp [hi]

theorem split_u64 (high low : UInt32) :
    u64 (high.toUInt64 <<< 32 ||| low.toUInt64) = u32 high ++ u32 low := by
  have hhigh : ((high.toUInt64 <<< 32 ||| low.toUInt64) >>> 32).toUInt32 = high := by
    apply UInt32.eq_of_toBitVec_eq
    apply BitVec.eq_of_getLsbD_eq
    intro i hi
    simp
    grind
  have hlow : (high.toUInt64 <<< 32 ||| low.toUInt64).toUInt32 = low := by
    apply UInt32.eq_of_toBitVec_eq
    apply BitVec.eq_of_getLsbD_eq
    intro i hi
    simp [hi]
  rw [u64, hhigh, hlow]

end Bytes

namespace Reader

/-- The reader takes exactly these bytes at this position, whatever is behind them. -/
def Reads (reader : Reader α) (position : Nat) (bytes : List UInt8) (value : α) : Prop :=
  ∀ rest, reader.run ⟨position, bytes ++ rest⟩ = (.ok value, ⟨position + bytes.length, rest⟩)

namespace Reads
variable {reader : Reader α} {position : Nat} {bytes more : List UInt8} {value : α}

protected theorem pure : Reads (pure value) position [] value := fun _ => rfl

protected theorem bind {next : α → Reader β} {result : β}
    (first : Reads reader position bytes value)
    (second : Reads (next value) (position + bytes.length) more result) :
    Reads (reader >>= next) position (bytes ++ more) result := by
  intro rest
  rw [Attempt.run_bind, List.append_assoc, first]
  simp only [second rest, List.length_append, Nat.add_assoc]

/-- A last step that takes no bytes. -/
protected theorem map {f : α → β} (first : Reads reader position bytes value) :
    Reads (reader >>= fun a => pure (f a)) position bytes (f value) := by
  intro rest
  rw [Attempt.run_bind, first]
  rfl

/-- Bytes that are read are the whole of the data where nothing else is there. -/
theorem parse_eq (h : Reads reader 0 bytes value) : Reader.parse reader bytes = .ok value := by
  have hrun := h []
  rw [List.append_nil] at hrun
  have hfinish : (finish : Reader Unit).run ⟨0 + bytes.length, []⟩
      = (.ok (), ⟨0 + bytes.length, []⟩) := rfl
  simp only [Reader.parse, Cursor.start, Attempt.run_bind, hrun, hfinish]
  rfl

end Reads

theorem reads_u8 (position : Nat) (v : UInt8) : Reads u8 position (Bytes.u8 v) v :=
  fun _ => rfl

theorem reads_u16 (position : Nat) (v : UInt16) : Reads u16 position (Bytes.u16 v) v := by
  intro rest
  conv_rhs => rw [← Bytes.join_u16 v]
  rfl

theorem reads_u32 (position : Nat) (v : UInt32) : Reads u32 position (Bytes.u32 v) v := by
  intro rest
  conv_rhs => rw [← Bytes.join_u32 v]
  rfl

theorem reads_i32 (position : Nat) (v : Int32) : Reads i32 position (Bytes.i32 v) v :=
  (reads_u32 position v.toUInt32).map

theorem reads_u64 (position : Nat) (v : UInt64) : Reads u64 position (Bytes.u64 v) v := by
  conv_rhs => rw [← Bytes.join_u64 v]
  exact (reads_u32 position _).bind (reads_u32 _ _).map

theorem reads_bytes (position : Nat) (bs : List UInt8) :
    Reads (bytes bs.length) position bs bs := by
  intro rest
  change (if _ then _ else _) = _
  rw [if_pos (by simp), List.take_left, List.drop_left]

/-- Items in a row are read one by one. -/
theorem reads_manyOnto {item : Reader α} {parts : List (List UInt8)} {values : List α}
    (h : List.Forall₂ (fun part value => ∀ position, Reads item position part value) parts values)
    (position : Nat) (done : List α) :
    Reads (manyOnto item values.length done) position parts.flatten (done.reverse ++ values) := by
  induction h generalizing position done with
  | nil =>
    intro rest
    simp only [List.append_nil]
    rfl
  | @cons part value parts values head _ ih =>
    intro rest
    have hhead := head position (parts.flatten ++ rest)
    have htail := ih (position + part.length) (value :: done) rest
    rw [List.flatten_cons, List.append_assoc]
    change manyOnto item (values.length + 1) done _ = _
    rw [manyOnto, hhead]
    refine htail.trans ?_
    simp [Nat.add_assoc]

/-- A list behind its count. -/
theorem reads_counted {item : Reader α} {parts : List (List UInt8)} {values : List α}
    {count : UInt16} (hcount : values.length = count.toNat)
    (h : List.Forall₂ (fun part value => ∀ position, Reads item position part value) parts values)
    (position : Nat) :
    Reads (counted item) position (Bytes.u16 count ++ parts.flatten) values := by
  refine (reads_u16 position count).bind ?_
  rw [← hcount]
  exact reads_manyOnto h _ []

/-- Items that are written by a function. -/
theorem forall₂_reads_map {item : Reader α} {write : α → List UInt8} {values : List α}
    (h : ∀ value ∈ values, ∀ position, Reads item position (write value) value) :
    List.Forall₂ (fun part value => ∀ position, Reads item position part value)
      (values.map write) values := by
  rw [List.forall₂_map_left_iff]
  exact List.forall₂_same.2 h

theorem Reads.reporting {reader : Reader α} {position : Nat} {bytes : List UInt8} {value : α}
    (h : Reads reader position bytes value) (rename : Fault → Fault) :
    Reads (reader.reporting rename) position bytes value := by
  intro rest
  have hrun := h rest
  dsimp only [Attempt.reporting, ExceptT.run] at hrun ⊢
  rw [hrun]

theorem Reads.ofExcept {x : Except Fault α} {value : α} (h : x = .ok value) (position : Nat) :
    Reads (Attempt.ofExcept x) position [] value := by
  intro rest
  rw [h]
  rfl

/-- Data that is read as a whole has nothing left behind its value. -/
theorem exists_run_of_parse {reader : Reader α} {data : List UInt8} {value : α}
    (h : Reader.parse reader data = .ok value) :
    ∃ last, reader.run (Cursor.start data) = (.ok value, last) ∧ last.rest = [] := by
  obtain ⟨a, last, hread, hrest⟩ := Attempt.run_bind_eq_ok_iff.1
    (Prod.ext h rfl : (do let value ← reader; finish; return value : Reader α).run
      (Cursor.start data) = (.ok value, _))
  obtain ⟨_, _, hfinish, hpure⟩ := Attempt.run_bind_eq_ok_iff.1 hrest
  cases hpure
  change (if _ then _ else _) = _ at hfinish
  split at hfinish
  case isFalse => cases hfinish
  case isTrue hempty => exact ⟨last, hread, List.isEmpty_iff.1 hempty⟩

/-- A reader takes bytes from the front, and they are in a relation to the value. -/
def Takes (reader : Reader α) (R : List UInt8 → α → Prop) : Prop :=
  ∀ cursor value next, reader.run cursor = (.ok value, next) →
    ∃ bytes, cursor.rest = bytes ++ next.rest ∧
      next.position = cursor.position + bytes.length ∧ R bytes value

namespace Takes
variable {reader : Reader α} {R S : List UInt8 → α → Prop} {Q : List UInt8 → β → Prop}

protected theorem pure {a : α} (h : R [] a) : Takes (pure a) R := by
  intro cursor value next hrun
  cases hrun
  exact ⟨[], rfl, rfl, h⟩

protected theorem throw (fault : Fault) : Takes (throw fault : Reader α) R :=
  fun _ _ _ hrun => nomatch hrun

protected theorem ofExcept {x : Except Fault α} (h : ∀ a, x = .ok a → R [] a) :
    Takes (Attempt.ofExcept x) R := by
  intro cursor value next hrun
  obtain ⟨hx, rfl⟩ := Attempt.run_ofExcept_eq_ok_iff.1 hrun
  exact ⟨[], rfl, rfl, h value hx⟩

protected theorem bind {next : α → Reader β} (h : Takes reader R)
    (hnext : ∀ a bytes, R bytes a → Takes (next a) fun more b => Q (bytes ++ more) b) :
    Takes (reader >>= next) Q := by
  intro cursor value last hrun
  obtain ⟨a, middle, ha, hb⟩ := Attempt.run_bind_eq_ok_iff.1 hrun
  obtain ⟨bytes, hrest, hposition, hR⟩ := h _ _ _ ha
  obtain ⟨more, hrest', hposition', hQ⟩ := hnext a bytes hR _ _ _ hb
  refine ⟨bytes ++ more, ?_, ?_, hQ⟩
  · rw [hrest, hrest', List.append_assoc]
  · rw [hposition', hposition, List.length_append, Nat.add_assoc]

protected theorem ite {c : Prop} [Decidable c] {other : Reader α} (h : c → Takes reader R)
    (h' : ¬c → Takes other R) : Takes (if c then reader else other) R := by
  split
  case isTrue hc => exact h hc
  case isFalse hc => exact h' hc

/-- A last step that takes no bytes. -/
protected theorem map {f : α → β} (h : Takes reader R)
    (hf : ∀ a bytes, R bytes a → Q bytes (f a)) : Takes (reader >>= fun a => pure (f a)) Q :=
  h.bind fun a bytes hR => .pure (by simpa using hf a bytes hR)

theorem throw_bind (fault : Fault) (next : α → Reader β) :
    Takes ((throw fault : Reader α) >>= next) Q :=
  Takes.bind (R := fun _ _ => False) (.throw fault) fun _ _ h => h.elim

theorem mono (h : Takes reader R) (hRS : ∀ bytes a, R bytes a → S bytes a) : Takes reader S := by
  intro cursor value next hrun
  obtain ⟨bytes, hrest, hposition, hR⟩ := h _ _ _ hrun
  exact ⟨bytes, hrest, hposition, hRS _ _ hR⟩

theorem reporting (h : Takes reader R) (rename : Fault → Fault) :
    Takes (reader.reporting rename) R := by
  intro cursor value next hrun
  dsimp only [Attempt.reporting, ExceptT.run] at hrun
  split at hrun
  · rename_i hstep
    cases hrun
    exact h _ _ _ hstep
  · cases hrun

/-- Data that is read as a whole is all taken. -/
theorem of_parse {data : List UInt8} {value : α} (h : Takes reader R)
    (hparse : Reader.parse reader data = .ok value) : R data value := by
  obtain ⟨last, hread, hempty⟩ := exists_run_of_parse hparse
  obtain ⟨bytes, hbytes, -, hR⟩ := h _ _ _ hread
  have hdata : data = bytes := by simpa [Cursor.start, hempty] using hbytes
  rwa [hdata]

end Takes

theorem takes_u8 : Takes u8 fun bytes v => bytes = Bytes.u8 v := by
  rintro ⟨position, rest⟩ value next hrun
  cases rest with
  | nil => cases hrun
  | cons a rest =>
    cases hrun
    exact ⟨[value], rfl, rfl, rfl⟩

theorem takes_u16 : Takes u16 fun bytes v => bytes = Bytes.u16 v := by
  rintro ⟨position, rest⟩ value next hrun
  match rest, hrun with
  | a :: b :: rest, hrun =>
    cases hrun
    exact ⟨[a, b], rfl, rfl, (Bytes.split_u16 a b).symm⟩

theorem takes_u32 : Takes u32 fun bytes v => bytes = Bytes.u32 v := by
  rintro ⟨position, rest⟩ value next hrun
  match rest, hrun with
  | a :: b :: c :: d :: rest, hrun =>
    cases hrun
    exact ⟨[a, b, c, d], rfl, rfl, (Bytes.split_u32 a b c d).symm⟩

theorem takes_i32 : Takes i32 fun bytes v => bytes = Bytes.i32 v :=
  takes_u32.map fun _ _ hbytes => hbytes

theorem takes_u64 : Takes u64 fun bytes v => bytes = Bytes.u64 v := by
  apply takes_u32.bind
  rintro high _ rfl
  apply takes_u32.map
  rintro low _ rfl
  exact (Bytes.split_u64 high low).symm

theorem takes_bytes (n : Nat) : Takes (bytes n) fun bytes v => bytes = v ∧ v.length = n := by
  intro cursor value next hrun
  change (if _ then _ else _) = _ at hrun
  split at hrun
  case isTrue h =>
    cases hrun
    exact ⟨cursor.rest.take n, (List.take_append_drop n _).symm, by rw [h], rfl, h⟩
  case isFalse => cases hrun

theorem takes_manyOnto {item : Reader α} {R : List UInt8 → α → Prop} (h : Takes item R) (n : Nat)
    (done : List α) : Takes (manyOnto item n done) fun bytes values => ∃ more parts,
      values = done.reverse ++ more ∧ more.length = n ∧ bytes = parts.flatten ∧
        List.Forall₂ R parts more := by
  induction n generalizing done with
  | zero =>
    intro cursor value next hrun
    cases hrun
    exact ⟨[], rfl, rfl, [], [], by simp⟩
  | succ n ih =>
    intro cursor values last hrun
    change manyOnto item (n + 1) done cursor = _ at hrun
    rw [manyOnto] at hrun
    split at hrun
    case h_2 => cases hrun
    case h_1 value middle hitem =>
      obtain ⟨bytes, hrest, hposition, hR⟩ := h _ _ _ hitem
      obtain ⟨rest, hrest', hposition', more, parts, hvalues, hmore, hparts, hall⟩ :=
        ih (value :: done) _ _ _ hrun
      refine ⟨bytes ++ rest, ?_, ?_, value :: more, bytes :: parts, ?_, ?_, ?_, .cons hR hall⟩
      · rw [hrest, hrest', List.append_assoc]
      · rw [hposition', hposition, List.length_append, Nat.add_assoc]
      · rw [hvalues, List.reverse_cons, List.append_assoc]
        rfl
      · rw [List.length_cons, hmore]
      · rw [hparts, List.flatten_cons]

/-- Items in a row, one part of the bytes for each. -/
theorem takes_many {item : Reader α} {R : List UInt8 → α → Prop} (h : Takes item R) (n : Nat) :
    Takes (many n item) fun bytes values => values.length = n ∧
      ∃ parts, bytes = parts.flatten ∧ List.Forall₂ R parts values := by
  refine (takes_manyOnto h n []).mono fun bytes values => ?_
  rintro ⟨more, parts, rfl, hmore, hparts⟩
  exact ⟨hmore, parts, hparts⟩

/-- Items behind their count. -/
theorem takes_counted {item : Reader α} {R : List UInt8 → α → Prop} (h : Takes item R) :
    Takes (counted item) fun bytes values => ∃ count parts, values.length = count.toNat ∧
      bytes = Bytes.u16 count ++ parts.flatten ∧ List.Forall₂ R parts values := by
  apply takes_u16.bind
  rintro count _ rfl
  refine (takes_many h _).mono fun bytes values => ?_
  rintro ⟨hlength, parts, rfl, hall⟩
  exact ⟨count, parts, hlength, rfl, hall⟩

/-- Parts that a function writes for each item. -/
theorem flatten_of_forall₂ {write : α → List UInt8} {parts : List (List UInt8)} {values : List α}
    (h : List.Forall₂ (fun part value => part = write value) parts values) :
    parts.flatten = values.flatMap write := by
  have hparts : parts = values.map write := by
    simpa using Forall₂.map_eq (f := write) (g := id) h.flip
  rw [hparts, List.flatMap_def]

/-- Whatever a reader returns has a property. -/
def Yields (reader : Reader α) (P : α → Prop) : Prop :=
  ∀ cursor value next, reader.run cursor = (.ok value, next) → P value

namespace Yields
variable {P : α → Prop} {Q : β → Prop}

protected theorem pure {a : α} (h : P a) : Yields (pure a) P := by
  intro cursor value next hrun
  cases hrun
  exact h

protected theorem throw (fault : Fault) : Yields (throw fault : Reader α) P :=
  fun _ _ _ hrun => nomatch hrun

protected theorem ofExcept {x : Except Fault α} (h : ∀ a, x = .ok a → P a) :
    Yields (Attempt.ofExcept x) P := by
  intro cursor value next hrun
  exact h value (Attempt.run_ofExcept_eq_ok_iff.1 hrun).1

protected theorem bind {reader : Reader α} {next : α → Reader β} (h : Yields reader P)
    (hnext : ∀ a, P a → Yields (next a) Q) : Yields (reader >>= next) Q := by
  intro cursor value last hrun
  obtain ⟨a, middle, ha, hb⟩ := Attempt.run_bind_eq_ok_iff.1 hrun
  exact hnext a (h _ _ _ ha) _ _ _ hb

/-- Nothing has to be known of what comes first. -/
theorem behind {reader : Reader α} {next : α → Reader β} (hnext : ∀ a, Yields (next a) Q) :
    Yields (reader >>= next) Q :=
  Yields.bind (P := fun _ => True) (fun _ _ _ _ => trivial) fun a _ => hnext a

theorem throw_bind (fault : Fault) (next : α → Reader β) :
    Yields ((throw fault : Reader α) >>= next) Q :=
  Yields.bind (P := fun _ => False) (.throw fault) fun _ h => h.elim

/-- The value of a reader over whole data. -/
theorem of_parse {reader : Reader α} {data : List UInt8} {value : α} (h : Yields reader P)
    (hparse : Reader.parse reader data = .ok value) : P value := by
  have hwhole : Yields (do let value ← reader; finish; return value) P :=
    h.bind fun _ hvalue => .behind fun _ => .pure hvalue
  exact hwhole _ _ _ (Prod.ext hparse rfl)

end Yields

theorem yields_bytes (n : Nat) : Yields (bytes n) fun bs => bs.length = n := by
  intro cursor value next hrun
  change (if _ then _ else _) = _ at hrun
  split at hrun
  case isTrue h =>
    cases hrun
    exact h
  case isFalse => cases hrun

theorem yields_manyOnto {item : Reader α} {P : α → Prop} (h : Yields item P) (n : Nat)
    {done : List α} (hdone : ∀ value ∈ done, P value) :
    Yields (manyOnto item n done) fun values => ∀ value ∈ values, P value := by
  induction n generalizing done with
  | zero =>
    intro cursor values next hrun
    cases hrun
    intro value hvalue
    exact hdone value (List.mem_reverse.1 hvalue)
  | succ n ih =>
    intro cursor values last hrun
    change manyOnto item (n + 1) done cursor = _ at hrun
    rw [manyOnto] at hrun
    split at hrun
    case h_2 => cases hrun
    case h_1 value middle hitem =>
      exact ih (List.forall_mem_cons.2 ⟨h _ _ _ hitem, hdone⟩) _ _ _ hrun

theorem yields_many {item : Reader α} {P : α → Prop} (h : Yields item P) (n : Nat) :
    Yields (many n item) fun values => ∀ value ∈ values, P value :=
  yields_manyOnto h n fun _ hvalue => absurd hvalue List.not_mem_nil

theorem yields_counted {item : Reader α} {P : α → Prop} (h : Yields item P) :
    Yields (counted item) fun values => ∀ value ∈ values, P value :=
  .behind fun count => yields_many h count.toNat

section Matches
variable {α' β' γ : Type}

/-- Where the first reader ends well, the second takes the same bytes, and the values are
related. -/
def Matches (reader : Reader α) (other : Reader β) (R : α → β → Prop) : Prop :=
  ∀ cursor a next, reader.run cursor = (.ok a, next) →
    ∃ b, other.run cursor = (.ok b, next) ∧ R a b

namespace Matches
variable {R : α → β → Prop} {S : α' → β' → Prop}

protected theorem pure {a : α} {b : β} (h : R a b) : Matches (pure a) (pure b) R := by
  intro cursor value next hrun
  cases hrun
  exact ⟨b, rfl, h⟩

protected theorem throw (fault : Fault) (other : Reader β) :
    Matches (throw fault) other R :=
  fun _ _ _ hrun => nomatch hrun

protected theorem ofExcept {x : Except Fault α} {y : Except Fault β}
    (h : ∀ a, x = .ok a → ∃ b, y = .ok b ∧ R a b) :
    Matches (Attempt.ofExcept x) (Attempt.ofExcept y) R := by
  intro cursor a next hrun
  obtain ⟨hx, rfl⟩ := Attempt.run_ofExcept_eq_ok_iff.1 hrun
  obtain ⟨b, hy, hR⟩ := h a hx
  exact ⟨b, Attempt.run_ofExcept_eq_ok_iff.2 ⟨hy, rfl⟩, hR⟩

protected theorem ite {c : Prop} [Decidable c] {x x' : Reader α} {y y' : Reader β}
    (h : Matches x y R) (h' : Matches x' y' R) :
    Matches (if c then x else x') (if c then y else y') R := by
  split
  · exact h
  · exact h'

protected theorem bind {reader : Reader α} {other : Reader β} {next : α → Reader α'}
    {otherNext : β → Reader β'} (h : Matches reader other R)
    (hnext : ∀ a b, R a b → Matches (next a) (otherNext b) S) :
    Matches (reader >>= next) (other >>= otherNext) S := by
  intro cursor value last hrun
  obtain ⟨a, middle, ha, hvalue⟩ := Attempt.run_bind_eq_ok_iff.1 hrun
  obtain ⟨b, hb, hR⟩ := h _ _ _ ha
  obtain ⟨value', hvalue', hS⟩ := hnext a b hR _ _ _ hvalue
  exact ⟨value', Attempt.run_bind_eq_ok_iff.2 ⟨b, middle, hb, hvalue'⟩, hS⟩

/-- A first step that the two have in common. -/
theorem behind {reader : Reader γ} {next : γ → Reader α'} {otherNext : γ → Reader β'}
    (hnext : ∀ c, Matches (next c) (otherNext c) S) :
    Matches (reader >>= next) (reader >>= otherNext) S := by
  have hsame : Matches reader reader fun c d => d = c := fun _ c _ hrun => ⟨c, hrun, rfl⟩
  exact hsame.bind fun c d heq => heq ▸ hnext c

theorem of_parse {reader : Reader α} {other : Reader β} {data : List UInt8} {a : α}
    (h : Matches reader other R) (hparse : Reader.parse reader data = .ok a) :
    ∃ b, Reader.parse other data = .ok b ∧ R a b := by
  have hwhole : Matches (do let value ← reader; finish; return value)
      (do let value ← other; finish; return value) R :=
    h.bind fun _ _ hR => .behind fun _ => .pure hR
  obtain ⟨b, hb, hR⟩ := hwhole _ _ _ (Prod.ext hparse rfl)
  exact ⟨b, congrArg Prod.fst hb, hR⟩

end Matches

variable {item : Reader α} {other : Reader β} {R : α → β → Prop}

theorem matches_manyOnto (h : Matches item other R) (n : Nat) {done : List α} {otherDone : List β}
    (hdone : List.Forall₂ R done otherDone) :
    Matches (manyOnto item n done) (manyOnto other n otherDone) (List.Forall₂ R) := by
  induction n generalizing done otherDone with
  | zero =>
    intro cursor as next hrun
    cases hrun
    exact ⟨otherDone.reverse, rfl, List.forall₂_reverse_iff.2 hdone⟩
  | succ n ih =>
    intro cursor as next hrun
    change manyOnto item (n + 1) done cursor = _ at hrun
    rw [manyOnto] at hrun
    split at hrun
    case h_2 => cases hrun
    case h_1 a middle hitem =>
      obtain ⟨b, hb, hR⟩ := h _ _ _ hitem
      obtain ⟨bs, hbs, hall⟩ := ih (hdone.cons hR) _ _ _ hrun
      refine ⟨bs, ?_, hall⟩
      change manyOnto other (n + 1) otherDone cursor = _
      rw [manyOnto, hb]
      exact hbs

theorem matches_many (h : Matches item other R) (n : Nat) :
    Matches (many n item) (many n other) (List.Forall₂ R) :=
  matches_manyOnto h n .nil

theorem matches_counted (h : Matches item other R) :
    Matches (counted item) (counted other) (List.Forall₂ R) :=
  .behind fun count => matches_many h count.toNat

end Matches

end Reader

end Embargo
