import EvalOrder.Plan

/-! What planning has to tell about its stages, in the order in which they run. Nothing is told of a
source whose levels cannot be found, and the last record is written only if planning succeeds. -/
namespace EvalOrder

inductive Stage where
  | levels
  | masking
  | splitting
  | planning
  deriving DecidableEq

inductive Severity where
  | debug
  | trace
  deriving DecidableEq

structure Record where
  severity : Severity
  stage : Stage
  message : Text
  deriving DecidableEq

namespace Journal

def escape (c : Char) : Text :=
  if c = '"' then ['\\', '"']
  else if c = '\\' then ['\\', '\\']
  else if c = '\t' then ['\\', 't']
  else if c = '\n' then ['\\', 'n']
  else if c = '\r' then ['\\', 'r']
  else if c = '\x00' then ['\\', '0']
  else if c.toNat < 32 || c.toNat = 127 then
    ['\\', 'u', '\x7b'] ++ Nat.toDigits 16 c.toNat ++ ['\x7d']
  else [c]

def quoted (t : Text) : Text :=
  '"' :: t.flatMap escape ++ ['"']

def listed (ts : List Text) : Text :=
  '[' :: ", ".toList.intercalate (ts.map quoted) ++ [']']

def cited (t : Text) : Text :=
  '`' :: t ++ ['`']

def found (source : Text) (levels : List Level) : List Record :=
  ⟨.debug, .levels, "discovered ".toList ++ Nat.toDigits 10 levels.length ++
    " levels in ".toList ++ cited source⟩ ::
  levels.map fun level => ⟨.trace, .levels, "  height ".toList ++
    Nat.toDigits 10 level.height ++ ": ".toList ++ cited level.raw⟩

def masked (level : Level) : Record :=
  ⟨.debug, .masking, "primitive form of ".toList ++ cited level.raw ++ ": ".toList ++
    cited level.masked⟩

def split (level : Level) : Record :=
  ⟨.debug, .splitting, "operations of ".toList ++ cited level.masked ++ ": ".toList ++
    listed (level.operations.map Operation.text)⟩

def planned (source : Text) (p : Plan) : Record :=
  ⟨.debug, .planning, "planned ".toList ++ Nat.toDigits 10 p.steps.length ++
    " steps for ".toList ++ cited source⟩

end Journal

def journal (source : Text) : List Record :=
  match splitLevelsOf source with
  | .error _ => []
  | .ok levels =>
    let last := match plan source with
      | .error _ => []
      | .ok p => [Journal.planned source p]
    Journal.found source levels ++ levels.map Journal.masked ++ levels.map Journal.split ++ last

end EvalOrder
