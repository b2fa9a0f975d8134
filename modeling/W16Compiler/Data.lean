import W16Compiler.Location
import W16Compiler.Words

/-!
# Static data

Globals, string literals, named constants and tables of virtual functions.
-/

namespace W16Compiler

/-- Where a data item goes, in the order of output. -/
inductive Section where
  | data
  /-- Zero at the start; only the size is written. -/
  | bss
  | const
  deriving DecidableEq

namespace Section

def all : List Section := [data, bss, const]

def name : Section → String
  | data => "data"
  | bss => "bss"
  | const => "const"

def flags : Section → Nat
  | data => 0
  | bss => 2
  | const => 1

end Section

inductive DataWord where
  | value (bits : Nat)
  /-- The address of a label moved by so many words. -/
  | symbol (label : String) (offset : Int)
  deriving DecidableEq

structure DataItem where
  label : String
  place : Section
  exported : Bool
  words : List DataWord
  size : Nat
  loc : Option Location := none
  deriving DecidableEq

namespace DataItem

def zeroed (label : String) (size : Nat) (exported : Bool) : DataItem :=
  { label, place := .bss, exported, words := [], size }

def initialized (label : String) (place : Section) (words : List DataWord) (exported : Bool) :
    DataItem :=
  { label, place, exported, words, size := words.length }

/-- A string literal, one character in a word and a zero at the end. -/
def string (label : String) (bytes : List UInt8) : DataItem :=
  initialized label .const (bytes.map (fun b ↦ .value b.toNat) ++ [.value 0]) false

end DataItem

/-- The words of a number of sixty-four bits, the low one first. Behind the fourth they start
again. -/
def valueWords (bits count : Nat) : List DataWord :=
  (List.range count).map fun i ↦ .value (bits / twoTo (16 * (i % 4)) % twoTo 16)

end W16Compiler
