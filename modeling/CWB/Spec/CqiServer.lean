import CWB.Library.Bits
import Mathlib.Data.BitVec

/-! The messages of the CQi protocol: the communication primitives of `CQi/server.c`. An `int`
is a 32-bit vector, a byte of the connection an 8-bit one. The connection carries what is
sent in order; a read beyond its end is an error that ends the server. -/

namespace CWB

open List

abbrev CqiByte := BitVec 8

abbrev CInt := BitVec 32

/-- A string up to its terminating null byte. -/
structure CString where
  bytes : List CqiByte
  noNull : 0 ∉ bytes
deriving DecidableEq

theorem CString.noNull_nil : (0 : CqiByte) ∉ [] := not_mem_nil

/-- The string in a buffer with a null byte at its end. -/
def CString.ofBuffer (buffer : List CqiByte) : CString where
  bytes := buffer.takeWhile (· ≠ 0)
  noNull h := by
    have hne : (0 : CqiByte) ≠ 0 := by simpa using all_eq_true.mp all_takeWhile 0 h
    exact hne rfl

/-- `strlen` in an `int` -/
def CString.strlen (str : CString) : CInt := BitVec.ofNat 32 str.bytes.length

/-- A list with its length in an `int`. -/
structure CList (α : Type) where
  elems : List α
  length_lt : elems.length < 2 ^ 31

/-! Sending. -/

/-- `cqi_send_byte`: all but the lowest 8 bits are discarded. -/
def cqiSendByte (n : CInt) : List CqiByte := [n.setWidth 8]

def cqiSendWord (n : CInt) : List CqiByte := cqiSendByte (n.sshiftRight 8) ++ cqiSendByte n

def cqiSendInt (n : CInt) : List CqiByte :=
  cqiSendByte (n.sshiftRight 24) ++ cqiSendByte (n.sshiftRight 16) ++ cqiSendByte (n.sshiftRight 8) ++ cqiSendByte n

/-- The loop over the characters of a string, `len` of them. -/
def cqiSendChars (len : CInt) (str : CString) : List CqiByte :=
  (str.bytes.take len.toInt.toNat).flatMap fun c => cqiSendByte (c.signExtend 32)

/-- `cqi_send_string`; `none` is NULL. -/
def cqiSendString : Option CString → List CqiByte
  | none => cqiSendWord 0
  | some str => cqiSendWord str.strlen ++ cqiSendChars str.strlen str

def cqiSendByteList (list : CList CqiByte) : List CqiByte :=
  cqiSendInt (BitVec.ofNat 32 list.elems.length) ++ list.elems.flatMap fun b => cqiSendByte (b.setWidth 32)

def cqiSendIntList (list : CList CInt) : List CqiByte :=
  cqiSendInt (BitVec.ofNat 32 list.elems.length) ++ list.elems.flatMap cqiSendInt

def cqiSendStringList (list : CList (Option CString)) : List CqiByte :=
  cqiSendInt (BitVec.ofNat 32 list.elems.length) ++ list.elems.flatMap cqiSendString

/-! Reading. -/

open Codec

/-- `cqi_read_byte` and `cqi_read_bool` -/
def cqiReadByte : Reader CqiByte CInt
  | [] => none
  | b :: stream => some (b.setWidth 32, stream)

/-- One more byte shifted in from the right. -/
def cqiShiftIn (n : CInt) : Reader CqiByte CInt := fun stream => do
  let (b, stream) ← cqiReadByte stream
  some (n <<< 8 ||| b, stream)

def cqiReadWord : Reader CqiByte CInt := fun stream => do
  let (n, stream) ← cqiReadByte stream
  cqiShiftIn n stream

/-- `cqi_read_int`; an `int` has 32 bits, so that no sign bits are added. -/
def cqiReadInt : Reader CqiByte CInt := fun stream => do
  let (n, stream) ← cqiReadByte stream
  let (n, stream) ← cqiShiftIn n stream
  let (n, stream) ← cqiShiftIn n stream
  cqiShiftIn n stream

/-- `cqi_recv_bytes` -/
def cqiRecvBytes (bytes : CInt) : Reader CqiByte (List CqiByte) := fun stream =>
  if bytes.toInt ≤ 0 then some ([], stream)
  else if bytes.toInt.toNat ≤ stream.length then some (stream.take bytes.toInt.toNat, stream.drop bytes.toInt.toNat)
  else none

def cqiReadString : Reader CqiByte CString := fun stream => do
  let (len, stream) ← cqiReadWord stream
  let (s, stream) ← cqiRecvBytes len stream
  some (.ofBuffer s, stream)

/-- The scheme of `cqi_read_byte_list`, `cqi_read_int_list` and `cqi_read_string_list`. -/
def cqiReadList {α : Type} (read : Reader CqiByte α) : Reader CqiByte (List α) := fun stream => do
  let (len, stream) ← cqiReadInt stream
  if len.toInt ≤ 0 then some ([], stream) else readMany read len.toInt.toNat stream

/-- `cqi_read_byte_list` and `cqi_read_bool_list`; the list holds bytes. -/
def cqiReadByteList : Reader CqiByte (List CqiByte) := cqiReadList fun stream => do
  let (b, stream) ← cqiReadByte stream
  some (b.setWidth 8, stream)

def cqiReadIntList : Reader CqiByte (List CInt) := cqiReadList cqiReadInt

def cqiReadStringList : Reader CqiByte (List CString) := cqiReadList cqiReadString

/-! Sequences of values. -/

/-- A value that is sent. A word has 16 bits; of a list a client gets the elements. -/
inductive CqiValue where
  | byte (n : CqiByte)
  | bool (n : Bool)
  | word (n : BitVec 16)
  | int (n : CInt)
  | string (str : CString)
  | byteList (list : CList CqiByte)
  | boolList (list : CList Bool)
  | intList (list : CList CInt)
  | stringList (list : CList CString)

inductive CqiKind where
  | byte | bool | word | int | string | byteList | boolList | intList | stringList
deriving Repr, DecidableEq

def CqiValue.kind : CqiValue → CqiKind
  | .byte _ => .byte
  | .bool _ => .bool
  | .word _ => .word
  | .int _ => .int
  | .string _ => .string
  | .byteList _ => .byteList
  | .boolList _ => .boolList
  | .intList _ => .intList
  | .stringList _ => .stringList

/-- `CQI_CONST_YES` and `CQI_CONST_NO` -/
def cqiConst (b : Bool) : CInt := if b then 1 else 0

def CList.map {α β : Type} (f : α → β) (list : CList α) : CList β where
  elems := list.elems.map f
  length_lt := by
    rw [length_map]
    exact list.length_lt

def CqiValue.send : CqiValue → List CqiByte
  | .byte n => cqiSendByte (n.setWidth 32)
  | .bool b => cqiSendByte (cqiConst b)
  | .word n => cqiSendWord (n.setWidth 32)
  | .int n => cqiSendInt n
  | .string str => cqiSendString (some str)
  | .byteList list => cqiSendByteList list
  | .boolList list => cqiSendByteList (list.map fun b => (cqiConst b).setWidth 8)
  | .intList list => cqiSendIntList list
  | .stringList list => cqiSendStringList (list.map some)

/-- A list that was read has less than `2 ^ 31` elements, since its length came in an `int`. -/
def CList.ofRead {α : Type} (elems : List α) : Option (CList α) :=
  if h : elems.length < 2 ^ 31 then some ⟨elems, h⟩ else none

/-- The value that the function for its kind reads. -/
def cqiReadValue : CqiKind → Reader CqiByte CqiValue
  | .byte, stream => do
    let (n, stream) ← cqiReadByte stream
    some (.byte (n.setWidth 8), stream)
  | .bool, stream => do
    let (n, stream) ← cqiReadByte stream
    some (.bool (n ≠ 0), stream)
  | .word, stream => do
    let (n, stream) ← cqiReadWord stream
    some (.word (n.setWidth 16), stream)
  | .int, stream => do
    let (n, stream) ← cqiReadInt stream
    some (.int n, stream)
  | .string, stream => do
    let (str, stream) ← cqiReadString stream
    some (.string str, stream)
  | .byteList, stream => do
    let (list, stream) ← cqiReadByteList stream
    let list ← CList.ofRead list
    some (.byteList list, stream)
  | .boolList, stream => do
    let (list, stream) ← cqiReadByteList stream
    let list ← CList.ofRead list
    some (.boolList (list.map fun b => b ≠ 0), stream)
  | .intList, stream => do
    let (list, stream) ← cqiReadIntList stream
    let list ← CList.ofRead list
    some (.intList list, stream)
  | .stringList, stream => do
    let (list, stream) ← cqiReadStringList stream
    let list ← CList.ofRead list
    some (.stringList list, stream)

/-- The messages one after the other on the connection. -/
def cqiSendAll (values : List CqiValue) : List CqiByte := values.flatMap CqiValue.send

def cqiReadAll (kinds : List CqiKind) : Reader CqiByte (List CqiValue) := readEach cqiReadValue kinds

end CWB
