/-
Names that the parts of the engine agree on.

A mutated function has a key made of its name and the identifier of its module.  The key names the
cell through which its callers reach it and the preserved copy of its body.  Names that begin with
the reserved text belong to the engine: the two probes of instrumented code and, per module, the
constant that numbers its functions.
-/

namespace MutationAnalysis.SymbolName

/-- Import space of what belongs to the whole image. -/
def environment : String := "env"

/-- Import space of the addresses of functions that a module calls and does not define. -/
def addresses : String := "got"

def memory : String := "memory"

def table : String := "__indirect_function_table"

/-- How the engine's own names begin. -/
def reserved : String := "__mutjit_"

def enterFunction : String := "__mutjit_enter_function"

def leaveFunction : String := "__mutjit_leave_function"

def indexOffsetStart : String := "__mutjit_function_index_offset_"

/-- The part of a text after a given beginning. -/
def after? (start s : String) : Option String :=
  (start.toList.isPrefixOf? s.toList).map String.ofList

/-- The part of a text before a given ending. -/
def before? (ending s : String) : Option String :=
  (ending.toList.isSuffixOf? s.toList).map String.ofList

/-- The key of a mutated function. -/
def key (function moduleId : String) : String := function ++ "_" ++ moduleId

/-- The cell of a key. -/
def cell (key : String) : String := key ++ "_trampoline"

/-- The preserved body of a key. -/
def preserved (key : String) : String := key ++ "_original"

/-- The key whose cell has the name. -/
def keyOfCell? (symbol : String) : Option String := before? "_trampoline" symbol

/-- The constant that numbers the functions of a module. -/
def indexOffset (moduleId : String) : String := indexOffsetStart ++ moduleId

/-- The module whose functions the constant numbers. -/
def moduleOfIndexOffset? (symbol : String) : Option String := after? indexOffsetStart symbol

/-- Whether a name belongs to the engine. -/
def isInternal (symbol : String) : Bool := (after? reserved symbol).isSome

end MutationAnalysis.SymbolName
