import Embargo.Proofs.Code.FrameTable

/-!
Class names in stack map tables byte for byte. A pool is spelled out when each of its texts has one
character for each byte, so that reading a table with it tells which bytes name its classes. A name
that goes from its bytes to text and back has the bytes that the text is encoded to.
-/
namespace Embargo
open Text Reader

namespace Text

/-- The text with one character for each byte. -/
def spelling (bytes : List UInt8) : String :=
  String.ofList (bytes.map fun b => Char.ofNat b.toNat)

/-- The bytes that a text spells. -/
def spelled (text : String) : List UInt8 := text.toList.map fun c => UInt8.ofNat c.toNat

@[simp] theorem spelled_spelling (bytes : List UInt8) : spelled (spelling bytes) = bytes := by
  rw [spelled, spelling, String.toList_ofList, List.map_map]
  refine (List.map_congr_left fun b _ => ?_).trans (List.map_id bytes)
  have hvalid : b.toNat.isValidChar := .inl (Nat.lt_trans b.toNat_lt (by decide))
  have hnat : (Char.ofNat b.toNat).toNat = b.toNat := by
    rw [Char.ofNat, dif_pos hvalid]
    rfl
  rw [Function.comp_apply, hnat]
  exact UInt8.ofNat_toNat

/-- How a name is spelled in a pool that it was added to. -/
def written (name : String) : String := spelling (ModifiedUtf8.encode name)

/-- How a name is spelled once it was read and written again. -/
def rewritten (name : String) : String :=
  match ModifiedUtf8.decode (spelled name) with
  | .ok text => written text
  | .error _ => name

theorem rewritten_spelling {bytes : List UInt8} {text : String}
    (h : ModifiedUtf8.decode bytes = .ok text) : rewritten (spelling bytes) = written text := by
  rw [rewritten, spelled_spelling, h]

/-- Exactly the bytes that text is encoded to stay the same. -/
theorem rewritten_eq_iff {bytes : List UInt8} {text : String}
    (h : ModifiedUtf8.decode bytes = .ok text) :
    rewritten (spelling bytes) = spelling bytes ↔ ModifiedUtf8.encode text = bytes := by
  rw [rewritten_spelling h, written]
  refine ⟨fun hsame => ?_, fun hsame => congrArg spelling hsame⟩
  simpa using congrArg spelled hsame

@[simp] theorem rewritten_written (name : String) : rewritten (written name) = written name :=
  rewritten_spelling (ModifiedUtf8.decode_encode name)

end Text

/-- The constant with its text, if it is one, spelled out. -/
def Constant.spelledOut : Constant → Constant
  | utf8 bytes => utf8 (ModifiedUtf8.encode (spelling bytes))
  | constant => constant

namespace Pool
variable {pool : Pool} {index : UInt16}

/-- The pool with its texts spelled out. -/
def spelledOut (pool : Pool) : Pool := ⟨pool.slots.map (Option.map Constant.spelledOut)⟩

theorem get_spelledOut (pool : Pool) (index : UInt16) :
    pool.spelledOut.get index = (pool.get index).map Constant.spelledOut := by
  unfold get
  rw [spelledOut, Array.getElem?_map]
  rcases pool.slots[index.toNat]? with _ | _ | constant <;> rfl

theorem utf8_spelledOut {bytes : List UInt8} (h : pool.get index = .ok (.utf8 bytes)) :
    pool.spelledOut.utf8 index = .ok (spelling bytes) := by
  have hget : pool.spelledOut.get index = .ok (.utf8 (ModifiedUtf8.encode (spelling bytes))) := by
    rw [get_spelledOut, h]
    rfl
  exact Except.bind_eq_ok_iff.2 ⟨_, hget, ModifiedUtf8.decode_encode _⟩

theorem className_of_get {utf8 : UInt16} {bytes : List UInt8}
    (h : pool.get index = .ok (.classRef utf8)) (hutf8 : pool.get utf8 = .ok (.utf8 bytes)) :
    pool.spelledOut.className index = .ok (spelling bytes) := by
  rw [className, get_spelledOut, h]
  exact utf8_spelledOut hutf8

/-- The name of a class is what the bytes say that its spelling consists of. -/
theorem className_spelledOut {name : String} (h : pool.className index = .ok name) :
    ∃ bytes, ModifiedUtf8.decode bytes = .ok name ∧
      pool.spelledOut.className index = .ok (spelling bytes) := by
  obtain ⟨constant, hclass, hrole⟩ := Except.bind_eq_ok_iff.1 h
  cases constant with
  | classRef utf8 =>
    obtain ⟨text, htext, hdecode⟩ := Except.bind_eq_ok_iff.1 hrole
    cases text with
    | utf8 bytes =>
      exact ⟨bytes, hdecode, className_of_get hclass htext⟩
    | _ => cases hdecode
  | _ => cases hrole

/-- All that names a class there is a spelling. -/
theorem exists_spelling {name : String} (h : pool.spelledOut.className index = .ok name) :
    ∃ bytes, name = spelling bytes := by
  obtain ⟨constant, hclass, hrole⟩ := Except.bind_eq_ok_iff.1 h
  cases constant with
  | classRef utf8 =>
    obtain ⟨text, htext, hdecode⟩ := Except.bind_eq_ok_iff.1 hrole
    rw [get_spelledOut] at htext
    obtain ⟨original, -, rfl⟩ := Except.map_eq_ok_iff.1 htext
    cases original with
    | utf8 bytes => exact ⟨bytes, Except.ok.inj (hdecode.symm.trans (ModifiedUtf8.decode_encode _))⟩
    | _ => cases hdecode
  | _ => cases hrole

theorem renames_spelledOut (later : Pool) : later.Renames later.spelledOut written := by
  intro name pool new index hpool hrun hlater
  obtain ⟨utf8, middle, hutf8, hclass⟩ := Attempt.run_bind_eq_ok_iff.1 hrun
  have hgrowth : Growth (fun _ => True) pool middle := (grows_addUtf8 trivial).growth hutf8
  have hlast : Growth (fun _ => True) middle new := (grows_intern_of_ne (by simp)).growth hclass
  have hget := hlater.get_eq (get_intern (hgrowth.wellFormed hpool) hclass)
  have htext := (hlast.trans hlater).get_eq (get_intern hpool hutf8)
  exact className_of_get hget htext

end Pool

/-- What names no class has no other name. -/
theorem ValueType.rename_eq_rename {type : ValueType} (f g : String → String)
    (h : ∀ name, type ≠ object name) : type.rename f = type.rename g := by
  cases type with
  | object name => exact absurd rfl (h name)
  | _ => rfl

theorem ValueType.rename_rename_eq {f g : String → String} (h : ∀ name, f (g name) = g name)
    (type : ValueType) : (type.rename g).rename f = type.rename g := by
  cases type with
  | object name => exact congrArg object (h name)
  | _ => rfl

theorem ValueType.matches_read (pool : Pool) : Matches (read pool) (read pool.spelledOut)
    fun type raw => raw.rename rewritten = type.rename written := by
  unfold read
  apply Matches.behind
  intro tag
  split
  case h_8 =>
    apply Matches.behind
    intro index
    refine (Matches.ofExcept (R := fun name raw => rewritten raw = written name) ?_).bind
      fun name raw heq => .pure (congrArg object heq)
    intro name hname
    obtain ⟨bytes, hdecode, hspelled⟩ := Pool.className_spelledOut hname
    exact ⟨_, hspelled, rewritten_spelling hdecode⟩
  case h_9 => exact .behind fun _ => .pure (rename_eq_rename _ _ nofun)
  case h_10 => exact .throw _ _
  all_goals exact .pure (rename_eq_rename _ _ nofun)

namespace FrameTable
variable {pool : Pool} {before raws : List ValueType}

/-- Frames as they are read, and as they are spelled where they are read. -/
structure Entry.Spells (entry raw : Entry) : Prop where
  gap : raw.gap = entry.gap
  locals : raw.locals.map (ValueType.rename rewritten)
    = entry.locals.map (ValueType.rename written)
  stack : raw.stack.map (ValueType.rename rewritten) = entry.stack.map (ValueType.rename written)

theorem matches_readEntry (hbefore : raws.map (ValueType.rename rewritten)
    = before.map (ValueType.rename written)) (index : Nat) :
    Matches (readEntry pool index before) (readEntry pool.spelledOut index raws)
      Entry.Spells := by
  have htype := ValueType.matches_read pool
  have hlength : raws.length = before.length := by
    simpa using congrArg List.length hbefore
  have hnil : [].map (ValueType.rename rewritten) = [].map (ValueType.rename written) := by
    rw [List.map_nil, List.map_nil]
  have hone {type raw : ValueType} (heq : raw.rename rewritten = type.rename written) :
      [raw].map (ValueType.rename rewritten) = [type].map (ValueType.rename written) := by
    rw [List.map_singleton, List.map_singleton, heq]
  apply Matches.behind
  intro kind
  unfold readKind
  refine .ite (.pure ⟨rfl, hbefore, hnil⟩) (.ite ?item (.ite (.throw _ _) (.ite ?gappedItem
    (.ite ?chop (.ite ?gapped (.ite ?append ?full))))))
  case item => exact htype.bind fun type raw heq => .pure ⟨rfl, hbefore, hone heq⟩
  case gappedItem =>
    exact .behind fun gap => htype.bind fun type raw heq =>
      .pure ⟨rfl, hbefore, hone heq⟩
  case chop =>
    apply Matches.behind
    intro gap
    dsimp only
    rw [hlength]
    refine .ite (.bind (R := fun _ _ => False) (.throw _ _) fun _ _ hfalse => hfalse.elim) ?_
    refine .pure ⟨rfl, ?_, hnil⟩
    rw [List.map_take, List.map_take, hbefore]
  case gapped => exact .behind fun gap => .pure ⟨rfl, hbefore, hnil⟩
  case append =>
    refine .behind fun gap => (matches_many htype _).bind fun added rawAdded heq =>
      .pure ⟨rfl, ?_, hnil⟩
    rw [List.map_append, List.map_append, hbefore, Forall₂.map_eq heq]
  case full =>
    exact .behind fun gap => (matches_counted htype).bind fun locals rawLocals hlocals =>
      (matches_counted htype).bind fun stack rawStack hstack =>
        .pure ⟨rfl, Forall₂.map_eq hlocals, Forall₂.map_eq hstack⟩

theorem matches_readOnto (n : Nat) (index : Nat) (previous : Option Nat)
    (hbefore : raws.map (ValueType.rename rewritten) = before.map (ValueType.rename written))
    {done rawDone : List Frame}
    (hdone : rawDone.map (Frame.rename rewritten) = done.map (Frame.rename written)) :
    Matches (readOnto pool index previous before n done)
      (readOnto pool.spelledOut index previous raws n rawDone) fun frames rawFrames =>
        rawFrames.map (Frame.rename rewritten) = frames.map (Frame.rename written) := by
  induction n generalizing index previous before raws done rawDone with
  | zero =>
    intro cursor frames next hrun
    cases hrun
    exact ⟨rawDone.reverse, rfl, by simp only [List.map_reverse, hdone]⟩
  | succ n ih =>
    intro cursor frames next hrun
    change readOnto pool index previous before (n + 1) done cursor = _ at hrun
    rw [readOnto] at hrun
    split at hrun
    case h_2 => cases hrun
    case h_1 entry middle hentry =>
      obtain ⟨raw, hraw, hspells⟩ := matches_readEntry hbefore index _ _ _ hentry
      let frame : Frame := ⟨offsetAfter previous entry.gap, entry.locals, entry.stack⟩
      let rawFrame : Frame := ⟨offsetAfter previous entry.gap, raw.locals, raw.stack⟩
      have hmore : (rawFrame :: rawDone).map (Frame.rename rewritten)
          = (frame :: done).map (Frame.rename written) := by
        have hframe : rawFrame.rename rewritten = frame.rename written := by
          simp only [Frame.rename, frame, rawFrame, hspells.locals, hspells.stack]
        rw [List.map_cons, List.map_cons, hframe, hdone]
      obtain ⟨rawFrames, hrawFrames, hall⟩ := ih (index + 1)
        (some (offsetAfter previous entry.gap)) hspells.locals hmore _ _ _ hrun
      refine ⟨rawFrames, ?_, hall⟩
      change readOnto pool.spelledOut index previous raws (n + 1) rawDone cursor = _
      rw [readOnto, hraw]
      dsimp only
      rw [hspells.gap]
      exact hrawFrames

/-- The frames of a table with the bytes of its classes. -/
def decodeSpelled (pool : Pool) (initial : List ValueType) (data : List UInt8) :
    Except Fault (List Frame) :=
  decode pool.spelledOut (initial.map (ValueType.rename written)) data

/-- A table that can be read can be read with the bytes of its classes. -/
theorem decodeSpelled_of_decode {initial : List ValueType} {data : List UInt8}
    {frames : List Frame} (h : decode pool initial data = .ok frames) :
    ∃ raws, decodeSpelled pool initial data = .ok raws ∧
      raws.map (Frame.rename rewritten) = frames.map (Frame.rename written) := by
  have hinitial : (initial.map (ValueType.rename written)).map (ValueType.rename rewritten)
      = initial.map (ValueType.rename written) := by
    rw [List.map_map]
    exact List.map_congr_left fun type _ => type.rename_rename_eq rewritten_written
  have hread : Matches (read pool initial)
      (read pool.spelledOut (initial.map (ValueType.rename written))) fun frames raws =>
        raws.map (Frame.rename rewritten) = frames.map (Frame.rename written) :=
    .behind fun count => matches_readOnto count.toNat 0 none hinitial
      (by rw [List.map_nil, List.map_nil])
  exact hread.of_parse h

/-- Every class of a table that can be read has bytes that can be decoded. -/
theorem exists_text_of_decodeSpelled {initial : List ValueType} {data : List UInt8}
    {frames raws : List Frame} (hraws : decodeSpelled pool initial data = .ok raws)
    (hspells : raws.map (Frame.rename rewritten) = frames.map (Frame.rename written)) :
    ∀ raw ∈ raws, ∀ name, ValueType.object name ∈ raw.locals ++ raw.stack →
      ∃ bytes text, name = spelling bytes ∧ ModifiedUtf8.decode bytes = .ok text := by
  intro raw hraw name hname
  have hinitial : ValueType.Names (fun name => ∃ bytes, name = spelling bytes)
      (initial.map (ValueType.rename written)) := by
    intro name hname
    obtain ⟨type, -, htype⟩ := List.mem_map.1 hname
    cases type with
    | object text => exact ⟨_, (ValueType.object.inj htype).symm⟩
    | _ => cases htype
  obtain ⟨hlocals, hstack⟩ :=
    names_of_decode (fun _ _ => Pool.exists_spelling) hinitial hraws raw hraw
  obtain ⟨bytes, rfl⟩ := (List.mem_append.1 hname).elim (hlocals name) (hstack name)
  -- the frame with the same text
  have hframe : raw.rename rewritten ∈ frames.map (Frame.rename written) :=
    hspells ▸ List.mem_map_of_mem hraw
  obtain ⟨frame, -, hsame⟩ := List.mem_map.1 hframe
  have htypes : (frame.locals ++ frame.stack).map (ValueType.rename written)
      = (raw.locals ++ raw.stack).map (ValueType.rename rewritten) := by
    rw [List.map_append, List.map_append]
    exact congrArg (fun frame : Frame => frame.locals ++ frame.stack) hsame
  have hmem : ValueType.object (rewritten (spelling bytes)) ∈
      (frame.locals ++ frame.stack).map (ValueType.rename written) := by
    rw [htypes]
    exact List.mem_map_of_mem hname
  obtain ⟨type, -, htype⟩ := List.mem_map.1 hmem
  cases type with
  | object text =>
    cases hdecode : ModifiedUtf8.decode bytes with
    | ok other => exact ⟨bytes, other, rfl, hdecode⟩
    | error fault =>
      -- bytes that cannot be decoded are no encoding of text
      have hbytes : ModifiedUtf8.encode text = bytes := by
        have hwritten := ValueType.object.inj htype
        rw [rewritten, spelled_spelling, hdecode] at hwritten
        simpa [written] using congrArg spelled hwritten
      rw [← hbytes, ModifiedUtf8.decode_encode] at hdecode
      cases hdecode
  | _ => cases htype

/-- A table that is written names each class by the bytes of its text. -/
theorem decodeSpelled_encode {P : String → Prop} {new later : Pool} {bytes : List UInt8}
    {initial : List ValueType} {frames : List Frame} (hpool : pool.WellFormed)
    (h : (encode initial frames).run pool = (.ok bytes, new)) (hlater : Pool.Growth P new later) :
    decodeSpelled later initial bytes = .ok (frames.map (Frame.rename written)) :=
  decode_encode_rename later.renames_spelledOut hpool h hlater

end FrameTable

end Embargo
