/-
# The messages of the collector
-/

import Sysak.Lib.LuaString

namespace Sysak

structure DataLine where
  line : String
  ls : List (String × String)
  vs : List (String × UInt64)
  log : List (String × String)
  deriving DecidableEq, Repr

structure NumLine (ν : Type*) where
  line : String
  ls : List (String × Lib.Bytes)
  vs : List (String × ν)
  deriving DecidableEq, Repr

structure ProtoTable where
  arr : List DataLine
  lines : List DataLine
  deriving DecidableEq, Repr

def protoTable : ProtoTable := ⟨[], []⟩

end Sysak
