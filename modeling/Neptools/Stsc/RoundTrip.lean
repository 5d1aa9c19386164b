import Mathlib.Tactic.IntervalCases
import Neptools.Format.Written
import Neptools.Stsc.Flow
import Neptools.Stsc.Switch

/-!
An STSC file that is read and not changed is written again. Only a switch can differ from
what was read, in the word that has the number of its cases.
-/

namespace Neptools

open Lib

namespace Stsc

open Context

variable {ctx ctx' : Context} {v : LabelView}

/-! The header. -/

namespace HeaderItem

/-- A record is written if it was read, which its flag tells. -/
theorem standsAt_dumpExtra {α : Type} [Pod α] {src src' : Source} {flag : UInt32} {x : Option α}
    (hget : src.get ≤ src.size) (h : readExtra α src flag = .ok (x, src')) :
    (x.isSome = true ↔ flag ≠ 0) ∧ src'.get ≤ src'.size ∧ src'.bytes = src.bytes ∧
      src'.get = src.get + (Sink.bytesOf (dumpExtra x)).length ∧
        StandsAt (Sink.bytesOf (dumpExtra x)) src.get src.bytes := by
  rw [readExtra] at h
  split at h
  · rename_i hflag
    obtain ⟨⟨a, src₁⟩, hread, heq⟩ := bind_eq_ok.mp h
    cases heq
    obtain ⟨hstand, rfl⟩ := Source.readGen_spec hread
    have hle := hstand.le
    rw [Pod.length_toBytes, Source.length_bytes] at hle
    refine ⟨iff_of_true rfl hflag, hle, rfl, ?_, ?_⟩
    · change src.get + Pod.size α = _
      simp [dumpExtra, Sink.bytesOf_cons]
    · simpa [dumpExtra, Sink.bytesOf_cons] using hstand
  · rename_i hflag
    cases h
    refine ⟨iff_of_false Bool.false_ne_true hflag, hget, rfl, rfl, ?_⟩
    have hempty : src.get + 0 ≤ src.bytes.length := by rwa [Source.length_bytes]
    exact StandsAt.of_slice hempty

theorem toNat_lt_eight {flags : UInt32} (h : flags &&& ~~~0x07 = 0) : flags.toNat < 8 := by
  have hbits : flags.toNat &&& 4294967288 = 0 := congrArg UInt32.toNat h
  refine Nat.lt_pow_two_of_testBit (n := 3) _ fun i hi => ?_
  by_cases hlt : i < 32
  · have hbit := congrArg (Nat.testBit · i) hbits
    simp only [Nat.testBit_and, Nat.zero_testBit] at hbit
    have hmask : Nat.testBit 4294967288 i = true := by
      interval_cases i <;> rfl
    simpa [hmask] using hbit
  · refine Nat.testBit_lt_two_pow (Nat.lt_of_lt_of_le flags.toNat_lt ?_)
    exact Nat.pow_le_pow_right (by omega) (by omega)

/-- The flags are those of the records that are there. -/
theorem flags_eq {h : HeaderItem} {flags : UInt32} (hflags : flags &&& ~~~0x07 = 0)
    (h₁ : h.extraHeaders1.isSome = true ↔ flags &&& 1 ≠ 0)
    (h₂ : h.extraHeaders2.isSome = true ↔ flags &&& 2 ≠ 0)
    (h₄ : h.extraHeaders4.isSome = true ↔ flags &&& 4 ≠ 0) : h.flags = flags := by
  have hlt := toNat_lt_eight hflags
  have heq : flags = UInt32.ofNat flags.toNat := UInt32.ofNat_toNat.symm
  generalize flags.toNat = n at hlt heq
  subst heq
  simp only [HeaderItem.flags, h₁, h₂, h₄]
  interval_cases n <;> rfl

theorem dump_of_parse {src : Source} {hdr : HeaderItem} (hv : v.Places ctx')
    (h : parse ctx src = .ok (ctx', hdr)) :
    ∃ calls, hdr.dump v = .ok calls ∧ StandsAt (Sink.bytesOf calls) src.get src.bytes := by
  obtain ⟨_, -, h⟩ := bind_eq_ok.mp h
  obtain ⟨⟨raw, src₀⟩, hread, h⟩ := bind_eq_ok.mp h
  obtain ⟨_, hvalid, h⟩ := bind_eq_ok.mp h
  obtain ⟨ptr, hptr, h⟩ := bind_eq_ok.mp h
  obtain ⟨⟨extra1, src₁⟩, h₁, h⟩ := bind_eq_ok.mp h
  obtain ⟨⟨extra2, src₂⟩, h₂, h⟩ := bind_eq_ok.mp h
  obtain ⟨⟨extra4, src₄⟩, h₄, h⟩ := bind_eq_ok.mp h
  cases h
  obtain ⟨hstand, rfl⟩ := Source.readGen_spec hread
  have hle := hstand.le
  rw [Pod.length_toBytes, Source.length_bytes] at hle
  obtain ⟨hsome₁, hget₁, hbytes₁, hpos₁, hstand₁⟩ := standsAt_dumpExtra hle h₁
  obtain ⟨hsome₂, hget₂, hbytes₂, hpos₂, hstand₂⟩ := standsAt_dumpExtra hget₁ h₂
  obtain ⟨hsome₄, hget₄, hbytes₄, hpos₄, hstand₄⟩ := standsAt_dumpExtra hget₂ h₄
  obtain ⟨_, hmagic, hvalid⟩ := bind_eq_ok.mp hvalid
  obtain ⟨_, -, hvalid⟩ := bind_eq_ok.mp hvalid
  obtain ⟨_, hflags, -⟩ := bind_eq_ok.mp hvalid
  have hmagic := require_eq_ok.mp hmagic
  have hflags := require_eq_ok.mp hflags
  have hat : ctx.createLabelFallbackAt entryPointName raw.entryPoint.toNat =
      .ok (ctx.createLabelFallback entryPointName ptr) := by
    rw [createLabelFallbackAt, hptr]
    rfl
  have hpos : v.toFilePos (freshName ctx.labels entryPointName) = .ok raw.entryPoint.toNat :=
    hv _ _ (Consistent.createLabelFallbackAt_toFilePos hat)
  refine ⟨_, by rw [dump, hpos, ok_bind]; rfl, ?_⟩
  have hraw : ({ magic := HeaderItem.magic, entryPoint := raw.entryPoint, flags := raw.flags } :
    Header) = raw := by rw [← hmagic]
  rw [flags_eq hflags hsome₁ hsome₂ hsome₄, UInt32.ofNat_toNat, hraw]
  rw [hpos₂, hpos₁, hbytes₂, hbytes₁] at hstand₄
  rw [hpos₁, hbytes₁] at hstand₂
  simp only [Sink.bytesOf_append, Sink.bytesOf_cons, Sink.bytesOf_nil, Sink.Call.bytes_write,
    List.append_nil, StandsAt.append_iff, List.length_append, Pod.length_toBytes, ← Nat.add_assoc]
  exact ⟨⟨⟨hstand, hstand₁⟩, hstand₂⟩, hstand₄⟩

end HeaderItem

/-! One item. -/

theorem isSwitch_of_parseInstruction {src : Source} {t : InstructionType} {i : Instruction}
    (h : parseInstruction ctx src t = .ok (ctx', i)) : i.isSwitch = t.isSwitch := by
  cases t with
  | simple noReturn ts =>
      obtain ⟨_, -, h⟩ := bind_eq_ok.mp h
      obtain ⟨raw, -, h⟩ := bind_eq_ok.mp h
      obtain ⟨_, -, h⟩ := bind_eq_ok.mp h
      obtain ⟨y, -, h⟩ := bind_eq_ok.mp h
      cases h
      rfl
  | rndJump =>
      obtain ⟨_, -, h⟩ := bind_eq_ok.mp h
      obtain ⟨x, -, h⟩ := bind_eq_ok.mp h
      obtain ⟨_, -, h⟩ := bind_eq_ok.mp h
      obtain ⟨y, -, h⟩ := bind_eq_ok.mp h
      cases h
      rfl
  | unimplemented => cases h
  | jumpIf =>
      obtain ⟨_, -, h⟩ := bind_eq_ok.mp h
      obtain ⟨x, -, h⟩ := bind_eq_ok.mp h
      obtain ⟨_, -, h⟩ := bind_eq_ok.mp h
      obtain ⟨y, -, h⟩ := bind_eq_ok.mp h
      obtain ⟨_, -, h⟩ := bind_eq_ok.mp h
      obtain ⟨tree, -, h⟩ := bind_eq_ok.mp h
      cases h
      rfl
  | jumpSwitchNoire =>
      obtain ⟨y, -, h⟩ := bind_eq_ok.mp h
      cases h
      rfl
  | jumpSwitchPotbb =>
      obtain ⟨y, -, h⟩ := bind_eq_ok.mp h
      obtain ⟨_, -, h⟩ := bind_eq_ok.mp h
      obtain ⟨x, -, h⟩ := bind_eq_ok.mp h
      cases h
      rfl

/-- If the item is a switch, no bit of the number of its cases was lost. -/
def Kept (src : Source) (it : Item) : Prop :=
  ∀ i : InstructionItem, it.body = .stscInstruction i → i.instruction.isSwitch = true →
    (src.valueAt InstructionJumpSwitchItem.FixParams (it.position + 1)).Fits

theorem kept_of_plain {src : Source} {it it' : Item} (h : it'.plain = it.plain) :
    Kept src it' ↔ Kept src it := by
  rw [Kept, Kept, body_of_plain h, position_of_plain h]

theorem kept_of_isRaw {src : Source} {it : Item} (h : it.body.isRaw = true) : Kept src it := by
  intro i hbody
  rw [hbody] at h
  cases h

variable {src w : Source}

/-- What is written stands in the file where it was read from. -/
theorem writtenAt_of_standsAt {pos : Nat} {kept : Prop} {b : Body} {calls : List Sink.Call}
    (hcalls : b.dump v b.ownSize = .ok calls) (hlength : (Sink.bytesOf calls).length = b.ownSize)
    (hstand : StandsAt (Sink.bytesOf calls) 0 w.bytes) (hw : StandsAt w.bytes pos src.bytes)
    (hkept : kept) : b.WrittenAt src.bytes v pos kept :=
  .of_standsAt hcalls hlength (hstand.trans hw) hkept

theorem cString_writtenAt {string : Bytes} (hstring : w.preadCString 0 = .ok string) {n : Item}
    (hn : n.body = .cString string) (hw : StandsAt w.bytes n.position src.bytes) :
    (Body.cString string).WrittenAt src.bytes v n.position (Kept src n) := by
  refine writtenAt_of_standsAt rfl ?_ ?_ hw fun i hi => ?_
  · simp [Sink.bytesOf_cons, Body.ownSize]
  · simpa [Sink.bytesOf_cons] using (Source.preadCString_spec hstring).2
  · rw [hn] at hi
    cases hi

theorem header_writtenAt {hdr : HeaderItem} (hv : v.Places ctx') (hget : w.get = 0)
    (hparse : HeaderItem.parse ctx w = .ok (ctx', hdr)) {n : Item} (hn : n.body = .stscHeader hdr)
    (hw : StandsAt w.bytes n.position src.bytes) :
    (Body.stscHeader hdr).WrittenAt src.bytes v n.position (Kept src n) := by
  obtain ⟨calls, hcalls, hstand⟩ := HeaderItem.dump_of_parse hv hparse
  rw [hget] at hstand
  refine writtenAt_of_standsAt hcalls (hdr.writes v calls hcalls) hstand hw fun i hi => ?_
  rw [hn] at hi
  cases hi

/-- What two switches write for the same value and cases differs in the size word only. -/
theorem getElem?_switchBytes {p p' : InstructionJumpSwitchItem.FixParams}
    (h : p.expectedVal = p'.expectedVal) (opcode : UInt8) (rest : Bytes) {k : Nat}
    (hword : ¬ (k = 5 ∨ k = 6)) :
    (toBytes opcode ++ (toBytes p ++ rest))[k]? = (toBytes opcode ++ (toBytes p' ++ rest))[k]? := by
  have hparts (p : InstructionJumpSwitchItem.FixParams) :
      toBytes opcode ++ (toBytes p ++ rest) =
        (toBytes opcode ++ toBytes p.expectedVal) ++ (toBytes p.size ++ rest) := by
    rw [List.append_assoc, ← List.append_assoc (toBytes p.expectedVal)]
    rfl
  have hfirst : (toBytes opcode ++ toBytes p'.expectedVal).length = 5 := by
    rw [List.length_append, Pod.length_toBytes, Pod.length_toBytes]
    rfl
  have hmid (x : UInt16) : (toBytes x).length = 2 := Pod.length_toBytes x
  rw [hparts, hparts, h]
  refine getElem?_append_mid _ _ ((hmid _).trans (hmid _).symm) ?_
  rw [hfirst, hmid]
  omega

/-- A switch is as long as what it was read from. -/
theorem switch_standsAt_iff (hctx : ctx.Consistent) (hv : v.Places ctx') {opcode : UInt8}
    {w' : Source} (hopcode : w.readUint8 .little = .ok (opcode, w')) {t : InstructionType}
    (ht : t.isSwitch = true) {i : Instruction}
    (hparse : parseInstruction ctx w' t = .ok (ctx', i)) :
    ∃ fp : InstructionJumpSwitchItem.FixParams, ∃ calls,
      InstructionItem.dump v { opcode, instruction := i } = .ok calls ∧
      (Sink.bytesOf calls).length = i.getSize ∧ w.get + i.getSize ≤ w.bytes.length ∧
      StandsAt (toBytes fp) (w.get + 1) w.bytes ∧
      (StandsAt (Sink.bytesOf calls) w.get w.bytes ↔ fp.Fits) ∧
      ∀ k < i.getSize, ¬ (k = 5 ∨ k = 6) →
        (Sink.bytesOf calls)[k]? = w.bytes[w.get + k]? := by
  obtain ⟨hsize, hback⟩ := writesBack_iff hctx hopcode ht hparse hv
  obtain ⟨switch, trailing, w'', rfl, rfl, hparse, htrailing⟩ := parse_switchType ht hparse
  obtain ⟨fp, exps, hread, hexps, hstand⟩ := standsAt_of_parse hctx hopcode hparse htrailing hv
  obtain ⟨calls, hcalls, hbytes⟩ := dump_switchInstruction hexps opcode trailing
  obtain ⟨-, rfl⟩ := Source.readUint_spec hopcode
  have hlength : (Sink.bytesOf calls).length = (switchInstruction switch trailing).getSize :=
    InstructionItem.writes v _ calls hcalls
  have hle := hstand.le
  rw [← hsize, Source.valueAt_of_standsAt hread.params] at hback
  have hsame : (toBytes opcode ++ (toBytes fp ++ Sink.bytesOf exps ++
      trailingBytes trailing)).length = (Sink.bytesOf calls).length := by
    simp [hbytes]
  rw [hsame, hlength] at hle
  refine ⟨fp, calls, hcalls, hlength, hle, hread.params, ?_, fun k hk hword => ?_⟩
  · rw [← hback]
    constructor
    · intro hwrites
      have hslice := hwrites.slice_eq
      rw [hlength] at hslice
      exact ⟨calls, hcalls, hslice.symm⟩
    · rintro ⟨calls', hcalls', heq⟩
      cases hcalls.symm.trans hcalls'
      rw [heq]
      exact StandsAt.of_slice hle
  · rw [hstand.getElem?_eq (by rwa [hsame, hlength]), hbytes]
    exact getElem?_switchBytes hread.expectedVal opcode _ hword

/-- An instruction writes what it was read from, if it is not a switch that lost a bit. -/
theorem instruction_writtenAt (hctx : ctx.Consistent) (hv : v.Places ctx') (hget : w.get = 0)
    {opcode : UInt8} {w' : Source} (hopcode : w.readUint8 .little = .ok (opcode, w'))
    {t : InstructionType} {i : Instruction} (hparse : parseInstruction ctx w' t = .ok (ctx', i))
    {n : Item} (hn : n.body = .stscInstruction { opcode, instruction := i })
    (hw : StandsAt w.bytes n.position src.bytes) :
    (Body.stscInstruction { opcode, instruction := i }).WrittenAt src.bytes v n.position
      (Kept src n) := by
  have hlength := InstructionItem.writes v { opcode, instruction := i }
  have hkind := isSwitch_of_parseInstruction hparse
  cases hswitch : t.isSwitch with
  | false =>
      obtain ⟨-, hle, calls, hcalls, hbytes⟩ :=
        InstructionItem.dump_of_parseInstruction hctx hopcode hswitch hparse hv
      have hstand : StandsAt (Sink.bytesOf calls) 0 w.bytes := by
        rw [hget] at hle hbytes
        rw [hbytes]
        exact StandsAt.of_slice (by rwa [Source.length_bytes])
      refine writtenAt_of_standsAt hcalls (hlength calls hcalls) hstand hw fun j hj hj' => ?_
      rw [hn] at hj
      cases hj
      rw [hkind, hswitch] at hj'
      cases hj'
  | true =>
      obtain ⟨fp, calls, hcalls, hlength, hle, hparams, hstand, hsame⟩ :=
        switch_standsAt_iff hctx hv hopcode hswitch hparse
      rw [hget] at hle hparams hstand hsame
      have hfits : src.valueAt InstructionJumpSwitchItem.FixParams (n.position + 1) = fp :=
        Source.valueAt_of_standsAt (hparams.trans hw)
      refine ⟨calls, hcalls, hlength, ?_, fun k hk hword => ?_⟩
      · rw [← hlength] at hle
        refine (StandsAt.trans_iff hw hle).trans (hstand.trans ?_)
        rw [← hfits]
        constructor
        · intro h j _ _
          exact h
        · intro h
          exact h _ hn (hkind.trans hswitch)
      · have hk : k < i.getSize := hk
        rw [hsame k hk fun hk => hword ⟨hkind.trans hswitch, hk⟩, hw.getElem?_eq (by omega),
          Nat.zero_add]

/-! The whole file. -/

/-- What is read of the file so far. -/
abbrev WrittenSoFar (src : Source) (ctx : Context) : Prop :=
  ctx.Written src.bytes (fun _ => True) (Kept src)

theorem WrittenSoFar.create {ctx₁ : Context} (h : WrittenSoFar src ctx) (hreading : Reading ctx)
    {ptr : ItemPointer} (hw : ctx.getSource ptr = .ok w) (hrelabels : ctx.Relabels ctx₁)
    {body : Body} (hsplit : ctx₁.splitCreate ptr.item ptr.offset body = .ok ctx')
    (hfixup : body.fixup = body)
    (hnew : ctx'.view.Places ctx₁ → ∀ n : Item, n.body = body →
      StandsAt w.bytes n.position src.bytes →
        body.WrittenAt src.bytes ctx'.view n.position (Kept src n)) : WrittenSoFar src ctx' :=
  Written.create h hreading.consistent hreading.listed.flat
    (fun _ hraw => ⟨trivial, kept_of_isRaw hraw⟩) (fun _ _ _ => Iff.rfl) (fun _ _ => kept_of_plain)
    hw hrelabels hsplit hfixup fun hv n hn hstands _ => hnew hv n hn hstands

theorem InstructionItem.createAndInsert_written {f : Flavor} (h : WrittenSoFar src ctx)
    (hreading : Reading ctx) {ptr : ItemPointer} {vs : List Visit}
    (hcreate : createAndInsert f ctx ptr = .ok (ctx', vs)) : WrittenSoFar src ctx' := by
  obtain ⟨⟨ctx₂, id, i⟩, hinsert, heq⟩ := bind_eq_ok.mp hcreate
  cases heq
  obtain ⟨w, hw, hinsert⟩ := bind_eq_ok.mp hinsert
  obtain ⟨_, -, hinsert⟩ := bind_eq_ok.mp hinsert
  obtain ⟨⟨opcode, w'⟩, hopcode, hinsert⟩ := bind_eq_ok.mp hinsert
  obtain ⟨⟨ctx₁, i'⟩, hparse, hinsert⟩ := bind_eq_ok.mp hinsert
  obtain ⟨ctx₂, hsplit, heq⟩ := bind_eq_ok.mp hinsert
  cases heq
  have hrelabels := relabeling_parseInstruction ctx w' _ ctx₁ i hparse
  obtain ⟨-, -, -, hget⟩ := getSource_spec hw
  refine h.create hreading hw hrelabels hsplit rfl fun hv n hn hstands => ?_
  exact instruction_writtenAt hreading.consistent hv (congrArg Source.get hget) hopcode hparse hn
    hstands

theorem CStringItem.maybeCreate_written (h : WrittenSoFar src ctx) (hreading : Reading ctx)
    {ptr : ItemPointer} {text : Bytes}
    (hmake : CStringItem.maybeCreate ctx ptr = .ok (ctx', text)) : WrittenSoFar src ctx' := by
  rw [CStringItem.maybeCreate] at hmake
  split at hmake
  · obtain ⟨w, hw, hmake⟩ := bind_eq_ok.mp hmake
    obtain ⟨string, hstring, hmake⟩ := bind_eq_ok.mp hmake
    obtain ⟨ctx₂, hsplit, hmake⟩ := bind_eq_ok.mp hmake
    cases hmake
    refine h.create hreading hw (.refl ctx) hsplit rfl fun _ n hn hstands => ?_
    exact cString_writtenAt hstring hn hstands
  · obtain ⟨x, -, hmake⟩ := bind_eq_ok.mp hmake
    obtain ⟨_, -, hmake⟩ := bind_eq_ok.mp hmake
    split at hmake
    · cases hmake
      exact h
    · cases hmake

theorem InstructionItem.make_written {f : Flavor} (h : WrittenSoFar src ctx)
    (hreading : Reading ctx) {ptr : ItemPointer} {vs : List Visit}
    (hmake : (ctx.isRaw ptr.item = true ∧ createAndInsert f ctx ptr = .ok (ctx', vs)) ∨
      ¬ ctx.isRaw ptr.item = true ∧ (ctx', vs) = (ctx, [])) : WrittenSoFar src ctx' := by
  rcases hmake with ⟨-, hcreate⟩ | ⟨-, heq⟩
  · exact createAndInsert_written h hreading hcreate
  · cases heq
    exact h

theorem Visit.make_written {f : Flavor} (h : WrittenSoFar src ctx) (hreading : Reading ctx)
    {v : Visit} {vs : List Visit} (hmake : v.make f ctx = .ok (ctx', vs)) :
    WrittenSoFar src ctx' := by
  cases v with
  | string l =>
      obtain ⟨ptr, -, hmake⟩ := bind_eq_ok.mp hmake
      obtain ⟨⟨ctx₂, text⟩, hcreate, heq⟩ := bind_eq_ok.mp hmake
      cases heq
      exact CStringItem.maybeCreate_written h hreading hcreate
  | code l =>
      obtain ⟨ptr, -, hmake⟩ := bind_eq_ok.mp hmake
      exact InstructionItem.make_written h hreading (InstructionItem.maybeCreateUnchecked_ok hmake)
  | checkedCode l =>
      obtain ⟨ptr, -, hmake⟩ := bind_eq_ok.mp hmake
      exact InstructionItem.make_written h hreading (InstructionItem.maybeCreate_ok hmake)
  | next id =>
      obtain ⟨ptr, -, hmake⟩ := bind_eq_ok.mp hmake
      exact InstructionItem.make_written h hreading (InstructionItem.maybeCreateUnchecked_ok hmake)

theorem HeaderItem.insert_written (h : WrittenSoFar src ctx) (hreading : Reading ctx)
    {ptr : ItemPointer} {hdr : HeaderItem} (hinsert : insert ctx ptr = .ok (ctx', hdr)) :
    WrittenSoFar src ctx' := by
  obtain ⟨w, hw, hinsert⟩ := bind_eq_ok.mp hinsert
  obtain ⟨⟨ctx₁, hdr'⟩, hparse, hinsert⟩ := bind_eq_ok.mp hinsert
  obtain ⟨ctx₂, hsplit, heq⟩ := bind_eq_ok.mp hinsert
  cases heq
  obtain ⟨-, -, -, hget⟩ := getSource_spec hw
  refine h.create hreading hw (parse_ok hparse).1 hsplit rfl fun hv n hn hstands => ?_
  exact header_writtenAt hv (congrArg Source.get hget) hparse hn hstands

namespace File

theorem written_root (h : (Context.root src).splitCreate 0 src.size .eof = .ok ctx) :
    WrittenSoFar src ctx :=
  Written.root_split (fun _ hraw => ⟨trivial, kept_of_isRaw hraw⟩) (fun it hit i hi => by
    rw [hit] at hi
    cases hi) h

theorem start_written {f : Flavor} {w : Worklist Context Visit} (h : start f src = .ok w) :
    WrittenSoFar src w.state := by
  obtain ⟨ctx, hsplit, h⟩ := bind_eq_ok.mp h
  split at h
  · exact absurd h readDetached_ne_ok
  · obtain ⟨⟨ctx', vs⟩, hcreate, heq⟩ := bind_eq_ok.mp h
    cases heq
    obtain ⟨⟨ctx₁, hdr⟩, hinsert, hcreate⟩ := bind_eq_ok.mp hcreate
    obtain ⟨entryPoint, -, hcreate⟩ := bind_eq_ok.mp hcreate
    have hreading := reading_root hsplit
    exact InstructionItem.createAndInsert_written
      (HeaderItem.insert_written (written_root hsplit) hreading hinsert)
      (HeaderItem.insert_reading hreading hinsert).1 hcreate

/-- A file that was read is written again, as long as it was, and with the same bytes if and
only if no switch lost a bit. All but the size words of those that did is as it was. -/
theorem parse_fixup_dump {f : Flavor} {n : Nat}
    (h : parse f src n = .ok { state := ctx, todo := [] }) :
    ∃ events, ctx.fixup.dump = .ok events ∧
      (Sink.bytesOf (callsOf events)).length = src.size ∧
        (Sink.bytesOf (callsOf events) = src.bytes ↔ ∀ it ∈ ctx.children.nodes, Kept src it) ∧
        ∀ p, (∀ it ∈ ctx.children.nodes, ¬ it.SpoiltAt (Kept src) p) →
          (Sink.bytesOf (callsOf events))[p]? = src.bytes[p]? := by
  obtain ⟨w, hstart, hsteps⟩ := bind_eq_ok.mp h
  have hperform : ∀ s t s' tasks, (goals.keeping (WrittenSoFar src)).Good s →
      (goals.keeping (WrittenSoFar src)).Ready s t → Visit.make f s t = .ok (s', tasks) →
        (goals.keeping (WrittenSoFar src)).Performed s t s' tasks := by
    intro s t s' tasks hgood hready hmake
    have hreading : Reading s := hgood.1
    exact (Visit.make_performed hreading hready hmake).keeping
      (Visit.make_written hgood.2 hreading hmake)
  have htrack := ((start_onTrack hstart).1.keeping (start_written hstart)).run hperform hsteps
  have hreading : Reading ctx := htrack.good.1
  have hdump := htrack.good.2.dump_iff hreading.consistent hreading.listed.flat fun _ _ => trivial
  rwa [Source.length_bytes] at hdump

/-- A text is shown, and that is all. -/
def oneText : Source :=
  .fromMemory [0x53, 0x54, 0x53, 0x43, 12, 0, 0, 0, 0, 0, 0, 0, 0x0e, 18, 0, 0, 0, 0x01, 0x61, 0]

theorem oneText_parse_fixup_dump : ∃ ctx events, parse .noire oneText 4 =
    .ok { state := ctx, todo := [] } ∧ ctx.fixup.dump = .ok events ∧
      (Sink.bytesOf (callsOf events)).length = 20 := by
  have hparse : (parse .noire oneText 4).toOption.map (fun w => w.todo) = some [] := by
    decide +kernel
  obtain ⟨⟨ctx, todo⟩, hparse, htodo⟩ := exists_ok_of_toOption hparse
  cases htodo
  obtain ⟨events, hdump, hlength, -⟩ := parse_fixup_dump hparse
  exact ⟨ctx, events, hparse, hdump, hlength⟩

end File

end Stsc

end Neptools
