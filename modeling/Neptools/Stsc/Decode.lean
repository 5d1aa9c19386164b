import Neptools.Format.Charted
import Neptools.Stcm.Edits
import Neptools.Stsc.Switch

/-!
An instruction of an STSC file is read as it was written, up to the names of its labels,
as long as its labels lead to places in the file and its texts can be read.
-/

namespace Neptools

open Lib

namespace Context

variable {ctx ctx' : Context}

theorem Relabels.getPointer (h : ctx.Relabels ctx') (pos : Nat) :
    ctx'.getPointer pos = ctx.getPointer pos := by
  have hget (id : Nat) : (ctx'.find? id).map (fun x => x.1.position) =
      (ctx.find? id).map fun x => x.1.position := by
    have hplain := congrArg (Option.map Item.position) (h.plain? id)
    simp only [Context.plain?, Option.map_map] at hplain
    exact hplain
  rw [Context.getPointer, Context.getPointer, h.pmap]
  split
  · rfl
  · split
    · rfl
    · rename_i id _
      have hsame := hget id
      rw [Context.get, Context.get]
      cases hfind : ctx.find? id with
      | none =>
          rw [hfind] at hsame
          rw [Option.map_eq_none_iff.mp hsame]
      | some x =>
          rw [hfind, Option.map_some, Option.map_eq_some_iff] at hsame
          obtain ⟨x', hfind', hpos⟩ := hsame
          rw [hfind']
          simp only [pure_eq_ok, ok_bind, hpos]

/-- If the byte at the position is not read yet, a text can be read from there. -/
def TextAt (ctx : Context) (pos : Nat) : Prop :=
  ∀ ptr src, ctx.getPointer pos = .ok ptr → ctx.bodyOf ptr.item = some (.raw src) →
    ptr.offset ≤ src.size ∧ 0 ∈ src.bytes.drop ptr.offset

theorem Relabels.textAt (h : ctx.Relabels ctx') {pos : Nat} (htext : ctx.TextAt pos) :
    ctx'.TextAt pos := by
  intro ptr src hptr hbody
  rw [h.getPointer] at hptr
  rw [h.bodyOf] at hbody
  exact htext ptr src hptr hbody

end Context

namespace Stsc

open Context

variable {ctx ctx' : Context} {v v' : LabelView}

/-- The labels are at the same position. -/
def SamePlace (v v' : LabelView) (l l' : LabelPtr) : Prop :=
  ∃ pos, v.toFilePos l = .ok pos ∧ v'.toFilePos l' = .ok pos

/-- The same argument, up to the name of its label. -/
inductive Arg.Same (v v' : LabelView) : Arg → Arg → Prop
  | uint8 (val : UInt8) : Same v v' (.uint8 val) (.uint8 val)
  | uint16 (val : UInt16) : Same v v' (.uint16 val) (.uint16 val)
  | uint32 (val : UInt32) : Same v v' (.uint32 val) (.uint32 val)
  | float (bits : UInt32) : Same v v' (.float bits) (.float bits)
  | string {l l' : Option LabelPtr} (h : Option.Rel (SamePlace v v') l l') :
      Same v v' (.string l) (.string l')
  | code {l l' : Option LabelPtr} (h : Option.Rel (SamePlace v v') l l') :
      Same v v' (.code l) (.code l')
  | data {l l' : Option LabelPtr} (h : Option.Rel (SamePlace v v') l l') :
      Same v v' (.data l) (.data l')

/-- The same instruction, up to the names of its labels. -/
inductive Instruction.Same (v v' : LabelView) : Instruction → Instruction → Prop
  | simple (noReturn : Bool) {args args' : List Arg} (h : args.Forall₂ (Arg.Same v v') args') :
      Same v v' (.simple noReturn args) (.simple noReturn args')
  | rndJump {tgts tgts' : List LabelPtr} (h : tgts.Forall₂ (SamePlace v v') tgts') :
      Same v v' (.rndJump tgts) (.rndJump tgts')
  | jumpIf {tgt tgt' : LabelPtr} (tree : List InstructionJumpIfItem.Node)
      (h : SamePlace v v' tgt tgt') : Same v v' (.jumpIf tgt tree) (.jumpIf tgt' tree)
  | jumpSwitchNoire {switch switch' : InstructionJumpSwitchItem} (h : switch.Same v v' switch') :
      Same v v' (.jumpSwitchNoire switch) (.jumpSwitchNoire switch')
  | jumpSwitchPotbb {switch switch' : InstructionJumpSwitchItem} (h : switch.Same v v' switch')
      (trailingByte : UInt8) :
      Same v v' (.jumpSwitchPotbb switch trailingByte) (.jumpSwitchPotbb switch' trailingByte)

theorem SamePlace.mono {v'' : LabelView} {l l' : LabelPtr} (h : SamePlace v v' l l')
    (hv : ∀ l pos, v'.toFilePos l = .ok pos → v''.toFilePos l = .ok pos) : SamePlace v v'' l l' := by
  obtain ⟨pos, hpos, hpos'⟩ := h
  exact ⟨pos, hpos, hv _ _ hpos'⟩

theorem Arg.Same.mono {v'' : LabelView} {a a' : Arg} (h : a.Same v v' a')
    (hv : ∀ l pos, v'.toFilePos l = .ok pos → v''.toFilePos l = .ok pos) : a.Same v v'' a' := by
  have hlabel {l l' : Option LabelPtr} (h : Option.Rel (SamePlace v v') l l') :
      Option.Rel (SamePlace v v'') l l' := by
    cases h with
    | none => exact .none
    | some h => exact .some (h.mono hv)
  cases h with
  | uint8 _ => exact .uint8 _
  | uint16 _ => exact .uint16 _
  | uint32 _ => exact .uint32 _
  | float _ => exact .float _
  | string h => exact .string (hlabel h)
  | code h => exact .code (hlabel h)
  | data h => exact .data (hlabel h)

/-! The arguments. -/

/-- The label, if there is one, leads to a place in a file of the given size, but not to its
start, which stands for no label. -/
def Arg.Readable (v : LabelView) (size : Nat) : Arg → Prop
  | .string l | .code l | .data l => ∀ l' ∈ l, ∃ pos, v.toFilePos l' = .ok pos ∧ 0 < pos ∧ pos ≤ size
  | _ => True

def Arg.text? : Arg → Option LabelPtr
  | .string l => l
  | _ => none

/-- Where there has to be a text, it can be read. -/
def TextsAt (v : LabelView) (ctx : Context) (texts : List LabelPtr) : Prop :=
  ∀ l ∈ texts, ∀ pos, v.toFilePos l = .ok pos → ctx.TextAt pos

theorem TextsAt.relabels {texts : List LabelPtr} (h : TextsAt v ctx texts)
    (hrelabels : ctx.Relabels ctx') : TextsAt v ctx' texts :=
  fun l hl pos hpos => hrelabels.textAt (h l hl pos hpos)

theorem toNat_ofNat {pos : Nat} (h : pos < 2 ^ 32) : (UInt32.ofNat pos).toNat = pos := by
  rw [UInt32.toNat_ofNat']
  exact Nat.mod_eq_of_lt h

theorem ofNat_ne_zero {pos : Nat} (hpos : 0 < pos) (h : pos < 2 ^ 32) : UInt32.ofNat pos ≠ 0 := by
  intro hzero
  have hnat := toNat_ofNat h
  rw [hzero] at hnat
  exact absurd hnat (Nat.ne_of_lt hpos)

theorem dumpLabel_eq_ok {l : LabelPtr} {pos : Nat} (hpos : v.toFilePos l = .ok pos) {bs : Bytes}
    (h : Arg.dumpLabel v (some l) = .ok bs) : Pod.ofBytes bs = UInt32.ofNat pos := by
  rw [Arg.dumpLabel, LabelView.toFilePosOrZero, hpos, ok_bind] at h
  cases h
  exact Pod.ofBytes_toBytes _

theorem dumpLabel_none_eq_ok {bs : Bytes} (h : Arg.dumpLabel v none = .ok bs) :
    Pod.ofBytes bs = (0 : UInt32) := by
  cases h
  exact Pod.ofBytes_toBytes _

namespace RawArg

/-- What is read of a label is a label of the same place. -/
def DecodesLabel (v : LabelView) (l : Option LabelPtr) (r : UInt32) (ctx : Context)
    (x : Except Error (Context × Option LabelPtr)) : Prop :=
  validateLabel r ctx.getSize = .ok () ∧ ∃ ctx' l', x = .ok (ctx', l') ∧
    ctx.Relabels ctx' ∧ ctx'.Charted ∧ Option.Rel (SamePlace v ctx'.view) l l'

theorem validateLabel_of_le (hsize : ctx.getSize < 2 ^ 32) {pos : Nat} (hle : pos ≤ ctx.getSize) :
    validateLabel (UInt32.ofNat pos) ctx.getSize = .ok () := by
  refine validateField_of ?_ _ _
  rwa [toNat_ofNat (Nat.lt_of_le_of_lt hle hsize)]

theorem parseLabel_of_dump (h : ctx.Charted) (hsize : ctx.getSize < 2 ^ 32) {l : Option LabelPtr}
    {bs : Bytes} (hdump : Arg.dumpLabel v l = .ok bs)
    (hread : (Arg.code l).Readable v ctx.getSize) :
    DecodesLabel v l (Pod.ofBytes bs) ctx (parseLabel ctx (Pod.ofBytes bs)) := by
  cases l with
  | none =>
      rw [dumpLabel_none_eq_ok hdump]
      exact ⟨validateLabel_of_le hsize (Nat.zero_le _), ctx, none, rfl, .refl ctx, h, .none⟩
  | some l =>
      obtain ⟨pos, hpos, hzero, hle⟩ := hread l rfl
      have hlt := Nat.lt_of_le_of_lt hle hsize
      obtain ⟨ctx', l', hl, hrelabels, hctx', hpos'⟩ := h.getLabelTo pos
      rw [dumpLabel_eq_ok hpos hdump]
      refine ⟨validateLabel_of_le hsize hle, ctx', some l', ?_, hrelabels, hctx',
        .some ⟨pos, hpos, hpos'⟩⟩
      rw [parseLabel, if_neg (ofNat_ne_zero hzero hlt), toNat_ofNat hlt, hl, ok_bind]
      rfl

theorem parseString_of_dump (h : ctx.Charted) (hsize : ctx.getSize < 2 ^ 32)
    {l : Option LabelPtr} {bs : Bytes} (hdump : Arg.dumpLabel v l = .ok bs)
    (hread : (Arg.string l).Readable v ctx.getSize) (htext : TextsAt v ctx l.toList) :
    DecodesLabel v l (Pod.ofBytes bs) ctx (parseString ctx (Pod.ofBytes bs)) := by
  cases l with
  | none =>
      rw [dumpLabel_none_eq_ok hdump]
      exact ⟨validateLabel_of_le hsize (Nat.zero_le _), ctx, none, rfl, .refl ctx, h, .none⟩
  | some l =>
      obtain ⟨pos, hpos, hzero, hle⟩ := hread l rfl
      have htext := htext l (by simp) pos hpos
      have hlt := Nat.lt_of_le_of_lt hle hsize
      rw [dumpLabel_eq_ok hpos hdump]
      refine ⟨validateLabel_of_le hsize hle, ?_⟩
      obtain ⟨ptr, hptr, -⟩ := h.exists_getPointer pos
      rw [parseString, if_neg (ofNat_ne_zero hzero hlt), toNat_ofNat hlt, hptr, ok_bind]
      split
      · rename_i hraw
        obtain ⟨src, hbody⟩ := exists_of_isRaw hraw
        obtain ⟨hin, hmem⟩ := htext ptr src hptr hbody
        obtain ⟨w, hw, hget, hbytes⟩ := getSource_of_bodyOf hbody hin
        have hrest : w.bytes = src.bytes.drop ptr.offset := by
          rw [hbytes, Lib.slice]
          exact List.take_of_length_le (by simp)
        rw [hw, ok_bind, Source.preadCString_of_mem (by rwa [hrest]), ok_bind]
        obtain ⟨ctx', l', hl, hrelabels, hctx', hpos'⟩ := h.getLabelToNamed pos
          (CStringItem.getLabelName ((w.bytes.drop 0).takeWhile (· ≠ 0)))
        refine ⟨ctx', some l', ?_, hrelabels, hctx', .some ⟨pos, hpos, hpos'⟩⟩
        rw [hl, ok_bind]
        rfl
      · obtain ⟨ctx', l', hl, hrelabels, hctx', hpos'⟩ := h.getLabelTo pos
        refine ⟨ctx', some l', ?_, hrelabels, hctx', .some ⟨pos, hpos, hpos'⟩⟩
        rw [hl, ok_bind]
        rfl

/-- An argument is read as it was written. -/
theorem parse_of_dump (h : ctx.Charted) (hsize : ctx.getSize < 2 ^ 32) {a : Arg} {bs : Bytes}
    (hdump : a.dump v = .ok bs) (hread : a.Readable v ctx.getSize)
    (htext : TextsAt v ctx a.text?.toList) :
    (ofBytes a.type bs).validate ctx.getSize = .ok () ∧ ∃ ctx' a',
      (ofBytes a.type bs).parse ctx = .ok (ctx', a') ∧ ctx.Relabels ctx' ∧ ctx'.Charted ∧
        a.Same v ctx'.view a' := by
  cases a with
  | uint8 val =>
      cases hdump
      rw [Arg.type, ofBytes, Pod.ofBytes_toBytes]
      exact ⟨rfl, ctx, _, rfl, .refl ctx, h, .uint8 val⟩
  | uint16 val =>
      cases hdump
      rw [Arg.type, ofBytes, Pod.ofBytes_toBytes]
      exact ⟨rfl, ctx, _, rfl, .refl ctx, h, .uint16 val⟩
  | uint32 val =>
      cases hdump
      rw [Arg.type, ofBytes, Pod.ofBytes_toBytes]
      exact ⟨rfl, ctx, _, rfl, .refl ctx, h, .uint32 val⟩
  | float bits =>
      cases hdump
      rw [Arg.type, ofBytes, Pod.ofBytes_toBytes]
      exact ⟨rfl, ctx, _, rfl, .refl ctx, h, .float bits⟩
  | string l =>
      obtain ⟨hvalid, ctx', l', hl, hrelabels, hctx', hsame⟩ := 
        parseString_of_dump h hsize hdump hread htext
      refine ⟨hvalid, ctx', .string l', ?_, hrelabels, hctx', .string hsame⟩
      rw [Arg.type, ofBytes, parse, hl, ok_bind]
      rfl
  | code l =>
      obtain ⟨hvalid, ctx', l', hl, hrelabels, hctx', hsame⟩ := parseLabel_of_dump h hsize hdump hread
      refine ⟨hvalid, ctx', .code l', ?_, hrelabels, hctx', .code hsame⟩
      rw [Arg.type, ofBytes, parse, hl, ok_bind]
      rfl
  | data l =>
      obtain ⟨hvalid, ctx', l', hl, hrelabels, hctx', hsame⟩ := parseLabel_of_dump h hsize hdump hread
      refine ⟨hvalid, ctx', .data l', ?_, hrelabels, hctx', .data hsame⟩
      rw [Arg.type, ofBytes, parse, hl, ok_bind]
      rfl

end RawArg

theorem parseArgs_of_dump (h : ctx.Charted) (hsize : ctx.getSize < 2 ^ 32) {args : List Arg}
    {bs : Bytes} (hdump : dumpArgs v args = .ok bs) (hread : ∀ a ∈ args, a.Readable v ctx.getSize)
    (htexts : TextsAt v ctx (args.filterMap Arg.text?)) :
    validateArgs ctx.getSize (rawArgs (args.map Arg.type) bs) = .ok () ∧
      ∃ ctx' args', parseArgs ctx (rawArgs (args.map Arg.type) bs) = .ok (ctx', args') ∧
        ctx.Relabels ctx' ∧ ctx'.Charted ∧ args.Forall₂ (Arg.Same v ctx'.view) args' := by
  induction args generalizing ctx bs with
  | nil => exact ⟨rfl, ctx, [], rfl, .refl ctx, h, .nil⟩
  | cons a args ih =>
      obtain ⟨first, hfirst, hdump⟩ := bind_eq_ok.mp hdump
      obtain ⟨rest, hrest, hdump⟩ := bind_eq_ok.mp hdump
      cases hdump
      obtain ⟨hreadFirst, hread⟩ := List.forall_mem_cons.mp hread
      have htext : TextsAt v ctx a.text?.toList := fun l hl => htexts l (by
        rw [Option.mem_toList] at hl
        exact List.mem_filterMap.mpr ⟨a, List.mem_cons_self, hl⟩)
      have htexts : TextsAt v ctx (args.filterMap Arg.text?) := fun l hl => htexts l (by
        obtain ⟨a', ha', hl⟩ := List.mem_filterMap.mp hl
        exact List.mem_filterMap.mpr ⟨a', List.mem_cons_of_mem _ ha', hl⟩)
      have hlength := length_dumpArg hfirst
      rw [List.map_cons, rawArgs, List.take_left' hlength, List.drop_left' hlength]
      obtain ⟨hvalid, ctx₁, a', ha, hrelabels, h₁, hsame⟩ :=
        RawArg.parse_of_dump h hsize hfirst hreadFirst htext
      have hsame₁ := hrelabels.getSize
      obtain ⟨hvalids, ctx', args', hargs, hrelabels', hctx', hsames⟩ := ih h₁ (hsame₁ ▸ hsize)
        hrest (hsame₁ ▸ hread) (htexts.relabels hrelabels)
      refine ⟨?_, ctx', a' :: args', ?_, hrelabels.trans hrelabels', hctx',
        .cons (hsame.mono (hrelabels'.extends False).toFilePos) hsames⟩
      · rw [validateArgs, hvalid, ok_bind, ← hsame₁]
        exact hvalids
      · rw [parseArgs, ha, ok_bind]
        dsimp only
        rw [hargs, ok_bind]
        rfl

/-- What is written stands behind the opcode, and is read as the same instruction. -/
def DecodesAt (v : LabelView) (ctx : Context) (i : Instruction)
    (x : Except Error (Context × Instruction)) : Prop :=
  ∃ ctx' i', x = .ok (ctx', i') ∧ ctx.Relabels ctx' ∧ ctx'.Charted ∧ i.Same v ctx'.view i'

variable {src : Source} {pos : Nat}

theorem decodes_simple (h : ctx.Charted) (hsize : ctx.getSize < 2 ^ 32) {noReturn : Bool}
    {args : List Arg} {calls : List Sink.Call}
    (hdump : (Instruction.simple noReturn args).dump v = .ok calls)
    (hread : ∀ a ∈ args, a.Readable v ctx.getSize)
    (htexts : TextsAt v ctx (args.filterMap Arg.text?))
    (hstand : StandsAt (Sink.bytesOf calls) pos src.bytes) (hpos : 0 < pos) :
    DecodesAt v ctx (.simple noReturn args)
      (parseSimple ctx noReturn (args.map Arg.type) (src.at_ pos)) := by
  obtain ⟨bytes, hbytes, hdump⟩ := bind_eq_ok.mp hdump
  cases hdump
  rw [Sink.bytesOf_cons, Sink.bytesOf_nil, List.append_nil, Sink.Call.bytes_write] at hstand
  have hlength := length_dumpArgs hbytes
  have hargs : bytes.length = argsSize (args.map Arg.type) := by
    rw [hlength, argsSize, List.map_map]
    rfl
  have hle := hstand.le
  rw [Source.length_bytes] at hle
  obtain ⟨hvalid, ctx', args', hparse, hrelabels, hctx', hsame⟩ :=
    parseArgs_of_dump h hsize hbytes hread htexts
  refine ⟨ctx', _, ?_, hrelabels, hctx', .simple noReturn hsame⟩
  have hcheck : (src.at_ pos).checkSize (argsSize (args.map Arg.type) + 1) = .ok () :=
    Source.checkSize_of_le (show _ ≤ src.size by omega)
  rw [parseSimple, hcheck, ok_bind, Source.read_of_standsAt hstand hargs, ok_bind]
  dsimp only
  rw [hvalid, ok_bind, hparse, ok_bind]
  rfl

/-! Jumps. -/

/-- The label leads to a byte of a file of the given size. -/
def TargetIn (v : LabelView) (size : Nat) (l : LabelPtr) : Prop :=
  ∃ pos, v.toFilePos l = .ok pos ∧ pos < size

theorem parseTargets_of_dump (h : ctx.Charted) (hsize : ctx.getSize < 2 ^ 32)
    {tgts : List LabelPtr} {calls : List Sink.Call} (hdump : dumpTargets v tgts = .ok calls)
    (hin : ∀ l ∈ tgts, TargetIn v ctx.getSize l)
    (hstand : StandsAt (Sink.bytesOf calls) pos src.bytes) :
    ∃ ctx' tgts', parseTargets ctx (src.at_ pos) tgts.length = .ok (ctx', tgts') ∧
      ctx.Relabels ctx' ∧ ctx'.Charted ∧ tgts.Forall₂ (SamePlace v ctx'.view) tgts' := by
  induction tgts generalizing ctx pos calls with
  | nil => exact ⟨ctx, [], rfl, .refl ctx, h, .nil⟩
  | cons l tgts ih =>
      obtain ⟨tgt, htgt, hdump⟩ := bind_eq_ok.mp hdump
      obtain ⟨rest, hrest, hdump⟩ := bind_eq_ok.mp hdump
      cases hdump
      obtain ⟨⟨tgt', htgt', hlt⟩, hin⟩ := List.forall_mem_cons.mp hin
      obtain rfl : tgt = tgt' := Except.ok.inj (htgt.symm.trans htgt')
      have hnat := toNat_ofNat (hlt.trans hsize)
      rw [Sink.bytesOf_cons, Sink.Call.bytes_write] at hstand
      have hfirst := hstand.left
      have hbehind := hstand.right
      rw [Pod.length_toBytes] at hbehind
      obtain ⟨ctx₁, l', hl, hrelabels, h₁, hpos'⟩ := h.getLabelTo tgt
      have hsame := hrelabels.getSize
      obtain ⟨ctx', tgts', hparse, hrelabels', hctx', htgts⟩ := ih h₁ (hsame ▸ hsize) hrest
        (hsame ▸ hin) hbehind
      refine ⟨ctx', l' :: tgts', ?_, hrelabels.trans hrelabels', hctx', .cons ⟨tgt, htgt, ?_⟩ htgts⟩
      · have hread : (src.at_ pos).readUint32 .little =
            .ok (UInt32.ofNat tgt, src.at_ (pos + Pod.size UInt32)) :=
          Source.readUint_of_standsAt hfirst
        rw [List.length_cons, parseTargets, hread, ok_bind]
        dsimp only
        rw [validateField_of (by rwa [hnat]), ok_bind, hnat, hl, ok_bind]
        dsimp only
        rw [hparse, ok_bind]
        rfl
      · exact (hrelabels'.extends False).toFilePos _ _ hpos'

theorem decodes_rndJump (h : ctx.Charted) (hsize : ctx.getSize < 2 ^ 32) {tgts : List LabelPtr}
    {calls : List Sink.Call} (hdump : (Instruction.rndJump tgts).dump v = .ok calls)
    (hlength : tgts.length < 256) (hin : ∀ l ∈ tgts, TargetIn v ctx.getSize l)
    (hstand : StandsAt (Sink.bytesOf calls) pos src.bytes) :
    DecodesAt v ctx (.rndJump tgts) (parseRndJump ctx (src.at_ pos)) := by
  obtain ⟨targets, htargets, hdump⟩ := bind_eq_ok.mp hdump
  cases hdump
  rw [Sink.bytesOf_cons, Sink.Call.bytes_write] at hstand
  have hfirst := hstand.left
  have hbehind := hstand.right
  rw [Pod.length_toBytes] at hbehind
  have hle := hbehind.le
  rw [writes_targets v tgts _ htargets, Source.length_bytes] at hle
  have hcount : (UInt8.ofNat tgts.length).toNat = tgts.length := by
    rw [UInt8.toNat_ofNat']
    exact Nat.mod_eq_of_lt hlength
  obtain ⟨ctx', tgts', hparse, hrelabels, hctx', hsame⟩ :=
    parseTargets_of_dump h hsize htargets hin hbehind
  refine ⟨ctx', _, ?_, hrelabels, hctx', .rndJump hsame⟩
  have hbyte : Pod.size UInt8 = 1 := rfl
  rw [hbyte] at hle hparse
  have hcheck : (src.at_ pos).checkRemainingSize 1 = .ok () :=
    Source.checkRemainingSize_of_le (show pos + 1 ≤ src.size by omega)
  have hread : (src.at_ pos).readUint8 .little =
      .ok (UInt8.ofNat tgts.length, src.at_ (pos + 1)) := Source.readUint_of_standsAt hfirst
  have hcheck' : (src.at_ (pos + 1)).checkRemainingSize (4 * tgts.length) = .ok () :=
    Source.checkRemainingSize_of_le (show pos + 1 + _ ≤ src.size by omega)
  rw [parseRndJump, hcheck, ok_bind, hread, ok_bind]
  dsimp only
  rw [hcount, hcheck', ok_bind, hparse, ok_bind]
  rfl

namespace InstructionJumpIfItem

theorem parseTree_of_standsAt (size : UInt16) {tree : List Node}
    (htree : ∀ nd ∈ tree, nd.left ≤ size.toNat ∧ nd.right ≤ size.toNat)
    (hstand : StandsAt (Sink.bytesOf (tree.map fun nd => .write (toBytes nd.params))) pos
      src.bytes) : parseTree size (src.at_ pos) tree.length = .ok tree := by
  induction tree generalizing pos with
  | nil => rfl
  | cons nd tree ih =>
      obtain ⟨⟨hleft, hright⟩, htree⟩ := List.forall_mem_cons.mp htree
      rw [List.map_cons, Sink.bytesOf_cons, Sink.Call.bytes_write] at hstand
      have hbehind := hstand.right
      rw [Pod.length_toBytes] at hbehind
      have hlt := size.toNat_lt
      have hleftNat : (UInt16.ofNat nd.left).toNat = nd.left := by
        rw [UInt16.toNat_ofNat']
        exact Nat.mod_eq_of_lt (by omega)
      have hrightNat : (UInt16.ofNat nd.right).toNat = nd.right := by
        rw [UInt16.toNat_ofNat']
        exact Nat.mod_eq_of_lt (by omega)
      have hvalid : nd.params.validate size = .ok () := by
        rw [NodeParams.validate, validateField_of, ok_bind, validateField_of]
        · rwa [UInt16.le_iff_toNat_le, Node.params, hrightNat]
        · rwa [UInt16.le_iff_toNat_le, Node.params, hleftNat]
      rw [List.length_cons, parseTree, Source.readGen_of_standsAt hstand.left, ok_bind]
      dsimp only
      rw [hvalid, ok_bind, ih htree hbehind, ok_bind]
      simp only [Node.params, hleftNat, hrightNat]
      rfl

theorem decodes (h : ctx.Charted) (hsize : ctx.getSize < 2 ^ 32) {tgt : LabelPtr}
    {tree : List Node} {calls : List Sink.Call}
    (hdump : (Instruction.jumpIf tgt tree).dump v = .ok calls) (hlength : tree.length < 65536)
    (htree : ∀ nd ∈ tree, nd.left ≤ tree.length ∧ nd.right ≤ tree.length)
    (hin : TargetIn v ctx.getSize tgt) (hstand : StandsAt (Sink.bytesOf calls) pos src.bytes) :
    DecodesAt v ctx (.jumpIf tgt tree) (parse ctx (src.at_ pos)) := by
  have hle : pos + (1 + Pod.size FixParams + tree.length * Pod.size NodeParams - 1) ≤ src.size := by
    have hle := hstand.le
    rwa [Instruction.writes v _ calls hdump, Source.length_bytes] at hle
  obtain ⟨tgtPos, htgt, hlt⟩ := hin
  rw [Instruction.dump, htgt, ok_bind] at hdump
  cases hdump
  rw [Sink.bytesOf_cons, Sink.Call.bytes_write] at hstand
  have hbehind := hstand.right
  rw [Pod.length_toBytes] at hbehind
  have hcount : (UInt16.ofNat tree.length).toNat = tree.length := by
    rw [UInt16.toNat_ofNat']
    exact Nat.mod_eq_of_lt hlength
  have hnat := toNat_ofNat (hlt.trans hsize)
  obtain ⟨ctx', l', hl, hrelabels, hctx', hpos'⟩ := h.getLabelTo tgtPos
  refine ⟨ctx', _, ?_, hrelabels, hctx', .jumpIf tree ⟨tgtPos, htgt, hpos'⟩⟩
  have hcheck : (src.at_ pos).checkRemainingSize (Pod.size FixParams) = .ok () :=
    Source.checkRemainingSize_of_le (show pos + _ ≤ src.size by omega)
  have hcheck' : (src.at_ (pos + Pod.size FixParams)).checkRemainingSize
      (tree.length * Pod.size NodeParams) = .ok () :=
    Source.checkRemainingSize_of_le (show pos + _ + _ ≤ src.size by omega)
  have htree' := parseTree_of_standsAt (UInt16.ofNat tree.length) (by rwa [hcount]) hbehind
  rw [parse, hcheck, ok_bind, Source.readGen_of_standsAt hstand.left, ok_bind]
  dsimp only
  rw [FixParams.validate, hcount, hnat, validateField_of, ok_bind, validateField_of hlt, ok_bind, hl,
    ok_bind]
  · dsimp only
    rw [hcheck', ok_bind, htree', ok_bind]
    rfl
  · change _ ≤ src.size - (pos + Pod.size FixParams)
    omega

end InstructionJumpIfItem

/-! Switches. -/

namespace InstructionJumpSwitchItem

theorem charted_of_parseExpressions (h : ctx.Charted) {src' : Source} {n : Nat}
    {exps : List Expression} (hparse : parseExpressions ctx src n = .ok (ctx', src', exps)) :
    ctx'.Charted := by
  induction n generalizing ctx src exps with
  | zero =>
      cases hparse
      exact h
  | succ n ih =>
      obtain ⟨⟨exp, src₁⟩, -, hparse⟩ := bind_eq_ok.mp hparse
      obtain ⟨_, hvalid, hparse⟩ := bind_eq_ok.mp hparse
      obtain ⟨⟨ctx₁, target⟩, htarget, hparse⟩ := bind_eq_ok.mp hparse
      obtain ⟨⟨ctx₂, src₂, rest⟩, hrest, hparse⟩ := bind_eq_ok.mp hparse
      cases hparse
      have hlt : exp.tgt.toNat < ctx.getSize := require_eq_ok.mp hvalid
      obtain ⟨ctx₃, l, hl, -, h₃, -⟩ := h.getLabelTo exp.tgt.toNat
      cases htarget.symm.trans hl
      exact ih h₃ hrest

theorem charted_of_parse (h : ctx.Charted) {src' : Source} {switch : InstructionJumpSwitchItem}
    (hparse : parse ctx src = .ok (ctx', src', switch)) : ctx'.Charted := by
  obtain ⟨_, -, hparse⟩ := bind_eq_ok.mp hparse
  obtain ⟨⟨fp, src₁⟩, -, hparse⟩ := bind_eq_ok.mp hparse
  obtain ⟨_, -, hparse⟩ := bind_eq_ok.mp hparse
  obtain ⟨⟨ctx₁, src₂, exps⟩, hexps, hparse⟩ := bind_eq_ok.mp hparse
  cases hparse
  exact charted_of_parseExpressions h hexps

/-- The word with the number of cases is taken for a number, with the flag in it. -/
def noRoom : Error :=
  .decodeError ("Stsc::InstructionJumpSwitchItemNoire::FixParams" ++ ": " ++
    "size * sizeof(ExpressionParams) <= rem_size")

/-- The number of cases fits in what is left of the word, and the targets are in the file. -/
structure Readable (v : LabelView) (size : Nat) (switch : InstructionJumpSwitchItem) : Prop where
  length : switch.expressions.length < 0x8000
  cases : switch.lastIsDefault = true → switch.expressions.length < 0x800
  targets : ∀ e ∈ switch.expressions, TargetIn v size e.target

end InstructionJumpSwitchItem

open InstructionJumpSwitchItem

theorem decodes_switch (h : ctx.Charted) (hsize : ctx.getSize < 2 ^ 32) {opcode : UInt8}
    {switch : InstructionJumpSwitchItem} {trailing : Option UInt8} {calls : List Sink.Call}
    (hread : switch.Readable v ctx.getSize)
    (hdump : InstructionItem.dump v { opcode, instruction := switchInstruction switch trailing } =
      .ok calls) (hstand : StandsAt (Sink.bytesOf calls) src.get src.bytes)
    (hroom : switch.Room (src.size - (src.get + Instruction.switchSize switch))) :
    DecodesAt v ctx (switchInstruction switch trailing)
      (parseInstruction ctx (src.at_ (src.get + 1)) (switchType trailing)) := by
  have hinside : Inside v ctx.getSize switch.expressions := by
    intro e he
    obtain ⟨pos, hpos, hlt⟩ := hread.targets e he
    exact ⟨pos, hlt, hpos⟩
  have hnarrow : Narrow v switch.expressions := by
    intro e he pos hpos
    obtain ⟨pos', hpos', hlt⟩ := hread.targets e he
    obtain rfl : pos = pos' := Except.ok.inj (hpos.symm.trans hpos')
    exact hlt.trans hsize
  obtain ⟨ctx', switch', hparse, hsame, -⟩ :=
    (readsBack_iff h.consistent h.pointed hread.length hinside hdump hstand).mpr ⟨hnarrow, hroom⟩
  obtain ⟨src', hswitch⟩ := parse_of_readsBack hparse
  have hrelabels := relabeling_parseInstruction ctx _ _ _ _ hparse
  refine ⟨ctx', _, hparse, hrelabels, charted_of_parse h hswitch, ?_⟩
  cases trailing with
  | none => exact .jumpSwitchNoire hsame
  | some trailingByte => exact .jumpSwitchPotbb hsame trailingByte

/-- A default case needs more bytes behind the switch than it has. -/
theorem parse_switch_noRoom {opcode : UInt8} {switch : InstructionJumpSwitchItem}
    {trailing : Option UInt8} {calls : List Sink.Call} (hread : switch.Readable v ctx.getSize)
    (hdump : InstructionItem.dump v { opcode, instruction := switchInstruction switch trailing } =
      .ok calls) (hstand : StandsAt (Sink.bytesOf calls) src.get src.bytes)
    (hroom : ¬ switch.Room (src.size - (src.get + Instruction.switchSize switch))) :
    switch.lastIsDefault = true ∧
      parseInstruction ctx (src.at_ (src.get + 1)) (switchType trailing) = .error noRoom := by
  have hdefault : switch.lastIsDefault = true := by
    by_contra hnot
    exact hroom fun hdefault => absurd hdefault hnot
  have hbehind : ¬ 0x40000 ≤ src.size - (src.get + Instruction.switchSize switch) :=
    fun hle => hroom fun _ => ⟨hread.cases hdefault, hle⟩
  refine ⟨hdefault, ?_⟩
  obtain ⟨cs, hcs⟩ := exists_dumpExpressions hdump
  obtain ⟨calls', hdump', hbytes⟩ := dump_switchInstruction hcs opcode trailing
  obtain rfl : calls = calls' := Except.ok.inj (hdump.symm.trans hdump')
  rw [hbytes] at hstand
  have hrest : StandsAt _ (src.get + 1) src.bytes := hstand.right
  have hparams := hrest.left.left
  have hle := hparams.le
  rw [Pod.length_toBytes, Source.length_bytes] at hle
  have hparse : InstructionJumpSwitchItem.parse ctx (src.at_ (src.get + 1)) = .error noRoom := by
    have hcheck : (src.at_ (src.get + 1)).checkRemainingSize (Pod.size FixParams) = .ok () :=
      Source.checkRemainingSize_of_le hle
    have hmany : ¬ switch.fixParams.size.toNat * Pod.size ExpressionParams ≤
        src.size - (src.get + 1 + Pod.size FixParams) := by
      rw [toNat_size hread.length, hdefault, if_pos rfl, size_expressionParams]
      rw [Instruction.switchSize, size_expressionParams] at hbehind
      omega
    rw [InstructionJumpSwitchItem.parse, hcheck, ok_bind, Source.readGen_of_standsAt hparams, ok_bind]
    dsimp only
    rw [FixParams.validate, validateField]
    exact congrArg (· >>= _) (require_not hmany _)
  cases trailing with
  | none =>
      rw [switchType, parseInstruction, parseJumpSwitchNoire, hparse]
      rfl
  | some trailingByte =>
      rw [switchType, parseInstruction, parseJumpSwitchPotbb, hparse]
      rfl

/-! Any instruction. -/

/-- The instruction is one of the given class, its counts fit in their fields, and its
labels lead to places in the file. -/
def Instruction.Readable (v : LabelView) (size : Nat) : InstructionType → Instruction → Prop
  | .simple noReturn ts, .simple noReturn' args =>
      noReturn = noReturn' ∧ ts = args.map Arg.type ∧ ∀ a ∈ args, a.Readable v size
  | .rndJump, .rndJump tgts => tgts.length < 256 ∧ ∀ l ∈ tgts, TargetIn v size l
  | .jumpIf, .jumpIf tgt tree =>
      tree.length < 65536 ∧ (∀ nd ∈ tree, nd.left ≤ tree.length ∧ nd.right ≤ tree.length) ∧
        TargetIn v size tgt
  | .jumpSwitchNoire, .jumpSwitchNoire switch | .jumpSwitchPotbb, .jumpSwitchPotbb switch _ =>
      switch.Readable v size
  | _, _ => False

/-- The texts the instruction has. -/
def Instruction.texts : Instruction → List LabelPtr
  | simple _ args => args.filterMap Arg.text?
  | rndJump _ | jumpIf _ _ | jumpSwitchNoire _ | jumpSwitchPotbb _ _ => []

def Instruction.hasDefault : Instruction → Bool
  | jumpSwitchNoire switch | jumpSwitchPotbb switch _ => switch.lastIsDefault
  | simple _ _ | rndJump _ | jumpIf _ _ => false

/-- An instruction is read as it was written, or is refused for its default case. -/
theorem decodes_parseInstruction (h : ctx.Charted) (hsize : ctx.getSize < 2 ^ 32)
    {t : InstructionType} {i : InstructionItem} {calls : List Sink.Call}
    (hread : i.instruction.Readable v ctx.getSize t)
    (htexts : TextsAt v ctx i.instruction.texts) (hdump : i.dump v = .ok calls)
    (hstand : StandsAt (Sink.bytesOf calls) src.get src.bytes) :
    DecodesAt v ctx i.instruction (parseInstruction ctx (src.at_ (src.get + 1)) t) ∨
      i.instruction.hasDefault = true ∧
        parseInstruction ctx (src.at_ (src.get + 1)) t = .error noRoom := by
  have hswitch {switch : InstructionJumpSwitchItem} (trailing : Option UInt8)
      (hread : switch.Readable v ctx.getSize)
      (hdump : InstructionItem.dump v
        { opcode := i.opcode, instruction := switchInstruction switch trailing } = .ok calls) :
      DecodesAt v ctx (switchInstruction switch trailing)
          (parseInstruction ctx (src.at_ (src.get + 1)) (switchType trailing)) ∨
        switch.lastIsDefault = true ∧
          parseInstruction ctx (src.at_ (src.get + 1)) (switchType trailing) = .error noRoom := by
    by_cases hroom : switch.Room (src.size - (src.get + Instruction.switchSize switch))
    · exact .inl (decodes_switch h hsize hread hdump hstand hroom)
    · exact .inr (parse_switch_noRoom hread hdump hstand hroom)
  obtain ⟨cs, hcs, heq⟩ := bind_eq_ok.mp hdump
  cases heq
  rw [Sink.bytesOf_cons, Sink.Call.bytes_write] at hstand
  have hrest : StandsAt (Sink.bytesOf cs) (src.get + 1) src.bytes := hstand.right
  obtain ⟨opcode, i⟩ := i
  cases t with
  | simple noReturn ts =>
      cases i with
      | simple noReturn' args =>
          obtain ⟨rfl, rfl, hargs⟩ := hread
          exact .inl (decodes_simple h hsize hcs hargs htexts hrest (Nat.succ_pos _))
      | rndJump _ | jumpIf _ _ | jumpSwitchNoire _ | jumpSwitchPotbb _ _ => exact hread.elim
  | rndJump =>
      cases i with
      | rndJump tgts => exact .inl (decodes_rndJump h hsize hcs hread.1 hread.2 hrest)
      | simple _ _ | jumpIf _ _ | jumpSwitchNoire _ | jumpSwitchPotbb _ _ => exact hread.elim
  | unimplemented => cases i <;> exact hread.elim
  | jumpIf =>
      cases i with
      | jumpIf tgt tree =>
          obtain ⟨hlength, htree, hin⟩ := hread
          exact .inl (InstructionJumpIfItem.decodes h hsize hcs hlength htree hin hrest)
      | simple _ _ | rndJump _ | jumpSwitchNoire _ | jumpSwitchPotbb _ _ => exact hread.elim
  | jumpSwitchNoire =>
      cases i with
      | jumpSwitchNoire switch => exact hswitch none hread hdump
      | simple _ _ | rndJump _ | jumpIf _ _ | jumpSwitchPotbb _ _ => exact hread.elim
  | jumpSwitchPotbb =>
      cases i with
      | jumpSwitchPotbb switch trailingByte =>
          exact hswitch (some trailingByte) hread hdump
      | simple _ _ | rndJump _ | jumpIf _ _ | jumpSwitchNoire _ => exact hread.elim

/-! The header. -/

namespace HeaderItem

/-- The same header, up to the name of its label. -/
structure Same (v v' : LabelView) (h h' : HeaderItem) : Prop where
  entryPoint : SamePlace v v' h.entryPoint h'.entryPoint
  extraHeaders1 : h'.extraHeaders1 = h.extraHeaders1
  extraHeaders2 : h'.extraHeaders2 = h.extraHeaders2
  extraHeaders4 : h'.extraHeaders4 = h.extraHeaders4

theorem flags_valid (h : HeaderItem) : h.flags &&& ~~~0x07 = 0 ∧
    (h.extraHeaders1.isSome = true ↔ h.flags &&& 1 ≠ 0) ∧
    (h.extraHeaders2.isSome = true ↔ h.flags &&& 2 ≠ 0) ∧
    (h.extraHeaders4.isSome = true ↔ h.flags &&& 4 ≠ 0) := by
  rw [flags]
  cases h.extraHeaders1.isSome <;> cases h.extraHeaders2.isSome <;>
    cases h.extraHeaders4.isSome <;> decide

theorem length_header (h : HeaderItem) (entryPoint : UInt32) :
    Header.length { magic, entryPoint, flags := h.flags } = h.getSize := by
  obtain ⟨-, h₁, h₂, h₄⟩ := h.flags_valid
  simp only [Header.length, getSize, h₁, h₂, h₄]

theorem readExtra_of_standsAt {α : Type} [Pod α] {x : Option α} {flag : UInt32}
    (hflag : x.isSome = true ↔ flag ≠ 0)
    (hstand : StandsAt (Sink.bytesOf (dumpExtra x)) pos src.bytes) :
    readExtra α (src.at_ pos) flag =
      .ok (x, src.at_ (pos + (Sink.bytesOf (dumpExtra x)).length)) := by
  rw [readExtra]
  cases x with
  | none =>
      rw [if_neg fun hne => Bool.false_ne_true (hflag.mpr hne)]
      rfl
  | some a =>
      rw [if_pos (hflag.mp rfl)]
      simp only [dumpExtra, Sink.bytesOf_cons, Sink.bytesOf_nil, List.append_nil,
        Sink.Call.bytes_write, Pod.length_toBytes] at hstand ⊢
      rw [Source.readGen_of_standsAt hstand, ok_bind]
      rfl

/-- A header is read as it was written, if it leads to some place behind it. -/
theorem parse_of_dump (h : ctx.Charted) {hdr : HeaderItem} {calls : List Sink.Call}
    (hdump : hdr.dump v = .ok calls) (hstand : StandsAt (Sink.bytesOf calls) 0 src.bytes)
    (hsize : src.size < 2 ^ 32) (hsame : ctx.getSize = src.size) {entry : Nat}
    (hentry : v.toFilePos hdr.entryPoint = .ok entry) (hle : hdr.getSize ≤ entry)
    (hlt : entry + 1 < src.size) :
    ∃ ctx' hdr', parse ctx (src.at_ 0) = .ok (ctx', hdr') ∧ ctx.Relabels ctx' ∧ ctx'.Charted ∧
      hdr.Same v ctx'.view hdr' := by
  rw [dump, hentry, ok_bind] at hdump
  cases hdump
  obtain ⟨hflags, h₁, h₂, h₄⟩ := hdr.flags_valid
  have hnat : (UInt32.ofNat entry).toNat = entry := toNat_ofNat (by omega)
  rw [Sink.bytesOf_append, Sink.bytesOf_append, Sink.bytesOf_append, Sink.bytesOf_cons,
    Sink.bytesOf_nil, List.append_nil, Sink.Call.bytes_write] at hstand
  have hheader := hstand.left.left.left
  have hfirst := hstand.left.left.right
  have hsecond := hstand.left.right
  have hthird := hstand.right
  simp only [List.length_append, ← Nat.add_assoc, Pod.length_toBytes] at hfirst hsecond hthird
  have hread := hheader.le
  rw [Pod.length_toBytes, Source.length_bytes] at hread
  have hcheck : (src.at_ 0).checkRemainingSize (Pod.size Header) = .ok () :=
    Source.checkRemainingSize_of_le hread
  obtain ⟨ptr, hptr, hinside⟩ := h.exists_getPointer entry
  obtain ⟨it, children, hfind, -⟩ := getPointer_ok hptr
  have hget := get_of_find? hfind
  have hat : ctx.createLabelFallbackAt entryPointName entry =
      .ok (ctx.createLabelFallback entryPointName ptr) := by
    rw [createLabelFallbackAt, hptr]
    rfl
  have hvalid : Header.validate { magic, entryPoint := UInt32.ofNat entry, flags := hdr.flags }
      src.size = .ok () := by
    rw [Header.validate, validateField_of rfl, ok_bind, hnat, validateField_of, ok_bind,
      validateField_of hflags, ok_bind, length_header, validateField_of hle]
    omega
  refine ⟨_, { hdr with entryPoint := (ctx.createLabelFallback entryPointName ptr).2 }, ?_,
    relabels_createLabelFallback _ hget, h.createLabelFallback _ hinside hget,
    ⟨entry, hentry, Consistent.createLabelFallbackAt_toFilePos hat⟩, rfl, rfl, rfl⟩
  rw [parse, hcheck, ok_bind, Source.readGen_of_standsAt hheader, ok_bind]
  dsimp only
  rw [Source.size_at_, hvalid, ok_bind, hnat, hptr, ok_bind, readExtra_of_standsAt h₁ hfirst,
    ok_bind]
  dsimp only
  rw [readExtra_of_standsAt h₂ hsecond, ok_bind]
  dsimp only
  rw [readExtra_of_standsAt h₄ hthird, ok_bind]
  rfl

end HeaderItem

end Stsc

end Neptools
