import StackCalc.Code.Instruction

/-!
# Listings

A listing shows code one instruction a line. Given labels, it writes a label on a line of its own
before the instruction it names, and notes the labels of its target beside a jump or call.
-/

namespace StackCalc

/-- Names of addresses. -/
abbrev Labels := List (String × UInt32)

namespace Labels

/-- The names of an address, in the order of their characters. -/
def namesAt (labels : Labels) (address : Nat) : List String :=
  ((labels.filter (·.2.toNat = address)).map (·.1)).mergeSort (fun a b => decide (a ≤ b))

end Labels

namespace Listing

def target? : Instruction → Option UInt32
  | .jump address | .call address => some address
  | _ => none

def note (labels : Labels) (i : Instruction) : String :=
  match target? i with
  | none => ""
  | some address =>
    match labels.namesAt address.toNat with
    | [] => ""
    | names => "  ; " ++ String.intercalate ", " names

/-- The labels of an offset and the instruction there. -/
def lines (labels : Labels) (offset : Nat) (i : Instruction) : List String :=
  (labels.namesAt offset).map (· ++ ":") ++
    [s!"    {Text.address offset}  {i.text}" ++ note labels i]

end Listing

/-- Code that does not decode to its end has no listing. -/
def listing (labels : Labels) (code : List UInt8) : Except DecodeError String :=
  match instructions code with
  | (_, some e) => .error e
  | (found, none) =>
    .ok (String.join ((found.flatMap fun (offset, i) => Listing.lines labels offset i).map
      (· ++ "\n")))

end StackCalc
