/-!
# Conditions

The fifteen conditions under which a jump or a branch is taken, with the code that stands in bits
8 to 11 of the word. The code `0b1111` belongs to no condition.
-/
namespace CompactRisc

inductive Condition where
  | equal
  | notEqual
  | carrySet
  | carryClear
  | flagSet
  | flagClear
  | lessThan
  | lessOrEqual
  | lower
  | lowerOrSame
  | greaterThan
  | greaterOrEqual
  | higher
  | higherOrSame
  | unconditional
  deriving DecidableEq, Repr

def Condition.code : Condition → BitVec 4
  | equal => 0
  | notEqual => 1
  | carrySet => 2
  | carryClear => 3
  | flagSet => 4
  | flagClear => 5
  | lessThan => 6
  | lessOrEqual => 7
  | lower => 8
  | lowerOrSame => 9
  | greaterThan => 10
  | greaterOrEqual => 11
  | higher => 12
  | higherOrSame => 13
  | unconditional => 14

end CompactRisc
