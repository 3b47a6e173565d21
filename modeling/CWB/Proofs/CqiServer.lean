import CWB.Spec.CqiServer
import Mathlib.Data.List.TakeWhile

/-! What is sent over the connection is what is read from it, as long as the length of each
string fits into the word that announces it. -/

namespace CWB

open List Codec

def CString.Fits (str : CString) : Prop := str.bytes.length < 2 ^ 16

def CqiValue.Fits : CqiValue → Prop
  | .string str => str.Fits
  | .stringList list => ∀ str ∈ list.elems, str.Fits
  | _ => True

/-! Bytes, words and integers. -/

theorem cqiReadByte_send (n : CInt) (rest : List CqiByte) :
    cqiReadByte (cqiSendByte n ++ rest) = some ((n.setWidth 8).setWidth 32, rest) := rfl

theorem word_of_bytes (n : CInt) :
    ((n.sshiftRight 8).setWidth 8).setWidth 32 <<< 8 ||| (n.setWidth 8).setWidth 32 = (n.setWidth 16).setWidth 32 := by
  refine BitVec.eq_of_getLsbD_eq fun i hi => ?_
  simp only [BitVec.getLsbD_or, BitVec.getLsbD_shiftLeft, BitVec.getLsbD_setWidth, BitVec.getLsbD_sshiftRight]
  grind

theorem int_of_bytes (n : CInt) :
    ((((n.sshiftRight 24).setWidth 8).setWidth 32 <<< 8 ||| ((n.sshiftRight 16).setWidth 8).setWidth 32) <<< 8 |||
      ((n.sshiftRight 8).setWidth 8).setWidth 32) <<< 8 ||| (n.setWidth 8).setWidth 32 = n := by
  refine BitVec.eq_of_getLsbD_eq fun i hi => ?_
  -- each bit comes from one of the four bytes
  have hbyte : i < 8 ∨ 8 ≤ i ∧ i < 16 ∨ 16 ≤ i ∧ i < 24 ∨ 24 ≤ i ∧ i < 32 := by omega
  simp only [BitVec.getLsbD_or, BitVec.getLsbD_shiftLeft, BitVec.getLsbD_setWidth, BitVec.getLsbD_sshiftRight]
  grind

/-- Only the lower half of an integer is sent as a word. -/
theorem cqiReadWord_send (n : CInt) (rest : List CqiByte) :
    cqiReadWord (cqiSendWord n ++ rest) = some ((n.setWidth 16).setWidth 32, rest) := by
  rw [← word_of_bytes]
  rfl

theorem cqiReadInt_send (n : CInt) : Inverts cqiSendInt cqiReadInt n := by
  intro rest
  conv_rhs => rw [← int_of_bytes n]
  rfl

variable {stream rest : List CqiByte}

theorem cqiReadWord_lt {n : CInt} (h : cqiReadWord stream = some (n, rest)) :
    n.toInt.toNat < 2 ^ 16 := by
  obtain _ | ⟨b₁, _ | ⟨b₂, stream⟩⟩ := stream
  · cases h
  · cases h
  · obtain ⟨rfl, -⟩ := Prod.mk.inj (Option.some.inj h)
    have h16 : (b₁.setWidth 32 <<< 8 ||| b₂.setWidth 32 : CInt) = (b₁ ++ b₂).setWidth 32 := by
      refine BitVec.eq_of_getLsbD_eq fun i hi => ?_
      simp only [BitVec.getLsbD_or, BitVec.getLsbD_shiftLeft, BitVec.getLsbD_setWidth, BitVec.getLsbD_append]
      grind
    have hlt := (b₁ ++ b₂).isLt
    rw [h16, BitVec.toInt_eq_toNat_cond, BitVec.toNat_setWidth]
    omega

/-! Strings. -/

theorem toInt_ofNat {n : ℕ} (h : n < 2 ^ 31) : (BitVec.ofNat 32 n).toInt.toNat = n := by
  rw [BitVec.toInt_eq_toNat_cond, BitVec.toNat_ofNat]
  omega

theorem cqiSendByte_char (c : CqiByte) : cqiSendByte (c.signExtend 32) = [c] := by
  have hc : (c.signExtend 32).setWidth 8 = c := by
    refine BitVec.eq_of_getLsbD_eq fun i hi => ?_
    simp [BitVec.getLsbD_signExtend, hi]
    omega
  rw [cqiSendByte, hc]

theorem CString.ofBuffer_bytes (str : CString) : CString.ofBuffer str.bytes = str := by
  obtain ⟨bytes, noNull⟩ := str
  have h : ∀ c ∈ bytes, decide (c ≠ 0) := by
    intro c hc
    exact decide_eq_true fun h0 : c = 0 => noNull (h0 ▸ hc)
  simp only [CString.ofBuffer, takeWhile_eq_self_iff.2 h]

variable {str : CString}

theorem cqiSendString_of_fits (h : str.Fits) :
    cqiSendString (some str) = cqiSendWord str.strlen ++ str.bytes := by
  have hlt : str.bytes.length < 2 ^ 16 := h
  have hlen : str.strlen.toInt.toNat = str.bytes.length := toInt_ofNat (by omega)
  simp [cqiSendString, cqiSendChars, hlen, cqiSendByte_char]

theorem cqiRecvBytes_append {len : CInt} {bytes : List CqiByte} (h : len.toInt.toNat = bytes.length)
    (rest : List CqiByte) : cqiRecvBytes len (bytes ++ rest) = some (bytes, rest) := by
  unfold cqiRecvBytes
  split_ifs with hpos hle
  · obtain rfl := length_eq_zero_iff.mp (show bytes.length = 0 by omega)
    rfl
  · simp [h]
  · simp [h] at hle

theorem cqiReadString_send (h : str.Fits) :
    Inverts (fun str => cqiSendString (some str)) cqiReadString str := by
  intro rest
  have hlt : str.bytes.length < 2 ^ 16 := h
  have hlen : ((str.strlen.setWidth 16).setWidth 32 : CInt).toInt.toNat = str.bytes.length := by
    rw [BitVec.toInt_eq_toNat_cond, CString.strlen, BitVec.toNat_setWidth, BitVec.toNat_setWidth, BitVec.toNat_ofNat]
    omega
  simp only [cqiReadString, cqiSendString_of_fits h, append_assoc, cqiReadWord_send, Option.bind_eq_bind,
    Option.bind_some, cqiRecvBytes_append hlen, str.ofBuffer_bytes]

theorem cqiRecvBytes_length {bytes : CInt} {s : List CqiByte}
    (h : cqiRecvBytes bytes stream = some (s, rest)) : s.length ≤ bytes.toInt.toNat := by
  unfold cqiRecvBytes at h
  split_ifs at h with hpos hle
  · obtain ⟨rfl, -⟩ := Prod.mk.inj (Option.some.inj h)
    simp
  · obtain ⟨rfl, -⟩ := Prod.mk.inj (Option.some.inj h)
    simp

/-- No string that is read is longer than a word can announce. -/
theorem cqiReadString_fits (h : cqiReadString stream = some (str, rest)) : str.Fits := by
  simp only [cqiReadString, Option.bind_eq_bind, Option.bind_eq_some_iff] at h
  obtain ⟨⟨len, stream₁⟩, hlen, ⟨s, stream₂⟩, hs, heq⟩ := h
  obtain ⟨rfl, -⟩ := Prod.mk.inj (Option.some.inj heq)
  calc (CString.ofBuffer s).bytes.length ≤ s.length := List.Sublist.length_le (takeWhile_sublist _)
    _ ≤ len.toInt.toNat := cqiRecvBytes_length hs
    _ < 2 ^ 16 := cqiReadWord_lt hlen

/-! Lists. -/

theorem cqiReadList_send {α : Type} {read : Reader CqiByte α} {write : α → List CqiByte} (list : CList α)
    (h : ∀ a ∈ list.elems, Inverts write read a) (rest : List CqiByte) :
    cqiReadList read (cqiSendInt (BitVec.ofNat 32 list.elems.length) ++ list.elems.flatMap write ++ rest)
      = some (list.elems, rest) := by
  have hlen := toInt_ofNat list.length_lt
  rw [cqiReadList, append_assoc, cqiReadInt_send]
  simp only [Option.bind_eq_bind, Option.bind_some]
  split_ifs with hpos
  · have hnil : list.elems = [] := length_eq_zero_iff.mp (by omega)
    simp [hnil]
  · rw [hlen]
    exact readMany_flatMap h rest

theorem cqiReadByteList_send (list : CList CqiByte) (rest : List CqiByte) :
    cqiReadByteList (cqiSendByteList list ++ rest) = some (list.elems, rest) := by
  refine cqiReadList_send list (fun b _ rest => ?_) rest
  simp [cqiReadByte_send]

theorem cqiReadIntList_send (list : CList CInt) (rest : List CqiByte) :
    cqiReadIntList (cqiSendIntList list ++ rest) = some (list.elems, rest) :=
  cqiReadList_send list (fun n _ => cqiReadInt_send n) rest

theorem cqiReadStringList_send (list : CList CString) (h : ∀ str ∈ list.elems, str.Fits) (rest : List CqiByte) :
    cqiReadStringList (cqiSendStringList (list.map some) ++ rest) = some (list.elems, rest) := by
  have hsend : cqiSendStringList (list.map some) = cqiSendInt (BitVec.ofNat 32 list.elems.length)
      ++ list.elems.flatMap fun str => cqiSendString (some str) := by
    simp [cqiSendStringList, CList.map, flatMap_map]
  rw [hsend]
  exact cqiReadList_send list (fun str hstr => cqiReadString_send (h str hstr)) rest

theorem CList.ofRead_elems {α : Type} (list : CList α) : CList.ofRead list.elems = some list :=
  dif_pos list.length_lt

theorem cqiReadStringList_fits {list : List CString}
    (h : cqiReadStringList stream = some (list, rest)) : ∀ str ∈ list, str.Fits := by
  simp only [cqiReadStringList, cqiReadList, Option.bind_eq_bind, Option.bind_eq_some_iff] at h
  obtain ⟨⟨len, stream₁⟩, -, h⟩ := h
  split_ifs at h
  · obtain ⟨rfl, -⟩ := Prod.mk.inj (Option.some.inj h)
    simp
  · exact forall_of_readMany (fun _ _ _ => cqiReadString_fits) h

/-! Values. -/

theorem cqiReadValue_send {v : CqiValue} (h : v.Fits) : Inverts CqiValue.send (cqiReadValue v.kind) v := by
  intro rest
  cases v with
  | byte n => simp [CqiValue.send, CqiValue.kind, cqiReadValue, cqiReadByte_send]
  | bool b => cases b <;> simp [CqiValue.send, CqiValue.kind, cqiReadValue, cqiReadByte_send, cqiConst]
  | word n => simp [CqiValue.send, CqiValue.kind, cqiReadValue, cqiReadWord_send]
  | int n => simp [CqiValue.send, CqiValue.kind, cqiReadValue, cqiReadInt_send n rest]
  | string str => simp [CqiValue.send, CqiValue.kind, cqiReadValue, cqiReadString_send h rest]
  | byteList list => simp [CqiValue.send, CqiValue.kind, cqiReadValue, cqiReadByteList_send, CList.ofRead_elems]
  | boolList list =>
    simp only [CqiValue.send, CqiValue.kind, cqiReadValue, cqiReadByteList_send, CList.ofRead_elems,
      Option.bind_eq_bind, Option.bind_some]
    have hb : (fun b : Bool => decide ((cqiConst b).setWidth 8 ≠ 0)) = id := by decide
    simp only [CList.map, map_map, Function.comp_def, hb, map_id]
  | intList list => simp [CqiValue.send, CqiValue.kind, cqiReadValue, cqiReadIntList_send, CList.ofRead_elems]
  | stringList list =>
    simp [CqiValue.send, CqiValue.kind, cqiReadValue, cqiReadStringList_send list h, CList.ofRead_elems]

theorem cqiReadValue_fits {k : CqiKind} {v : CqiValue} (h : cqiReadValue k stream = some (v, rest)) : v.Fits := by
  cases k with
  | string =>
    simp only [cqiReadValue, Option.bind_eq_bind, Option.bind_eq_some_iff] at h
    obtain ⟨⟨str, stream₁⟩, hstr, heq⟩ := h
    obtain ⟨rfl, -⟩ := Prod.mk.inj (Option.some.inj heq)
    exact cqiReadString_fits hstr
  | stringList =>
    simp only [cqiReadValue, Option.bind_eq_bind, Option.bind_eq_some_iff] at h
    obtain ⟨⟨elems, stream₁⟩, helems, list, hlist, heq⟩ := h
    obtain ⟨rfl, -⟩ := Prod.mk.inj (Option.some.inj heq)
    obtain ⟨hlt, helem⟩ := Option.dite_none_right_eq_some.mp hlist
    obtain rfl := Option.some.inj helem
    exact cqiReadStringList_fits helems
  | _ =>
    simp only [cqiReadValue, Option.bind_eq_bind, Option.bind_eq_some_iff] at h
    grind [CqiValue.Fits]

/-- Every message arrives as it was sent, and no more is read than was sent, if and only if the
length of each string fits into a word. -/
theorem cqiReadAll_send_iff (values : List CqiValue) (rest : List CqiByte) :
    cqiReadAll (values.map CqiValue.kind) (cqiSendAll values ++ rest) = some (values, rest) ↔ ∀ v ∈ values, v.Fits := by
  refine ⟨fun h => ?_, fun h => ?_⟩
  · exact forall_of_readEach (fun k stream v rest => cqiReadValue_fits) h
  · exact readEach_flatMap CqiValue.kind (fun v hv => cqiReadValue_send (h v hv)) rest

/-- A string of `2 ^ 16` characters: the word that announces its length is 0. -/
def longString : CString where
  bytes := replicate (2 ^ 16) 0x61
  noNull h := absurd (eq_of_mem_replicate h) (by decide)

theorem cqiSendString_long (rest : List CqiByte) (h : str.strlen = 2 ^ 16)
    (hlen : str.bytes.length = 2 ^ 16) : cqiSendString (some str) ++ rest = [0, 0] ++ (str.bytes ++ rest) := by
  have hsent : cqiSendWord (2 ^ 16) = [0, 0] := by decide
  have hall : str.bytes.take (2 ^ 16 : CInt).toInt.toNat = str.bytes := by
    have h16 : (2 ^ 16 : CInt).toInt.toNat = 2 ^ 16 := by decide
    rw [h16, ← hlen, take_length]
  simp only [cqiSendString, h, hsent, cqiSendChars, hall, cqiSendByte_char, flatMap_singleton', append_assoc]

theorem cqiReadAll_desync (rest : List CqiByte) :
    cqiReadAll [.string, .int] ([0, 0] ++ ([0x61, 0x61, 0x61, 0x61] ++ rest))
      = some ([.string (.ofBuffer []), .int 0x61616161], rest) := rfl

/-- The client reads an empty string, and the first four characters as the number after it. -/
theorem longString_desync :
    cqiReadAll [.string, .int] (cqiSendAll [.string longString, .int 5])
        = some ([.string (.ofBuffer []), .int 0x61616161], replicate (2 ^ 16 - 4) 0x61 ++ cqiSendInt 5) ∧
      cqiReadAll [.string, .int] (cqiSendAll [.string longString, .int 5]) ≠ some ([.string longString, .int 5], []) := by
  have hlen : longString.bytes.length = 2 ^ 16 := length_replicate
  have hstrlen : longString.strlen = 2 ^ 16 := by
    rw [CString.strlen, hlen]
    rfl
  have hsplit : longString.bytes = [0x61, 0x61, 0x61, 0x61] ++ replicate (2 ^ 16 - 4) 0x61 := by
    have h := replicate_append_replicate (n := 4) (m := 2 ^ 16 - 4) (a := (0x61 : CqiByte))
    exact h.symm
  have hread : cqiReadAll [.string, .int] (cqiSendAll [.string longString, .int 5])
      = some ([.string (.ofBuffer []), .int 0x61616161], replicate (2 ^ 16 - 4) 0x61 ++ cqiSendInt 5) := by
    have hsend : cqiSendAll [.string longString, .int 5] = cqiSendString (some longString) ++ cqiSendInt 5 := rfl
    rw [hsend, cqiSendString_long _ hstrlen hlen, hsplit, append_assoc]
    exact cqiReadAll_desync _
  refine ⟨hread, fun h => ?_⟩
  rw [hread] at h
  have hint := (List.cons.inj (List.cons.inj (Prod.mk.inj (Option.some.inj h)).1).2).1
  exact absurd (CqiValue.int.inj hint) (by decide)

end CWB
