import DdbShell.Client
import DdbShell.Lib.SortedMap

/-!
The seam between the engine's values and the SDK's. Every string goes through a
C string on its way, and a map of the SDK is an ordered one that keeps the first
entry of a key. The SDK's base64 is a parameter.
-/

namespace DdbShell

inductive SdkAttributeValue where
  | STRING (s : String)
  | NUMBER (n : String)
  | BYTEBUFFER (b : List UInt8)
  | BOOL (boolean : Bool)
  | NULLVALUE
  | ATTRIBUTE_LIST (l : List SdkAttributeValue)
  | ATTRIBUTE_MAP (m : List (String × SdkAttributeValue))
  | STRING_SET (ss : List String)
  | NUMBER_SET (ns : List String)
  | BYTEBUFFER_SET (bs : List (List UInt8))
  deriving Repr, Inhabited

/-- An `Aws::Map`, in the order of its keys. -/
abbrev SdkItem := List (String × SdkAttributeValue)

section ToSdk

variable (base64Decode : String → List UInt8)

mutual

def toSdkValue : Value → SdkAttributeValue
  | .S s => .STRING (cString s)
  | .N s => .NUMBER (cString s)
  | .B s => .BYTEBUFFER (base64Decode (cString s))
  | .BOOL boolean => .BOOL boolean
  | .NUL => .NULLVALUE
  | .L list => .ATTRIBUTE_LIST (toSdkList list)
  | .M map => .ATTRIBUTE_MAP (SortedMap.ofEntries (toSdkEntries map))
  | .SS set => .STRING_SET (set.map cString)
  | .NS set => .NUMBER_SET (set.map cString)
  | .BS set => .BYTEBUFFER_SET (set.map fun s => base64Decode (cString s))

def toSdkList : List Value → List SdkAttributeValue
  | [] => []
  | v :: vs => toSdkValue v :: toSdkList vs

/-- The arguments of the `emplace` calls. -/
def toSdkEntries : List (String × Value) → List (String × SdkAttributeValue)
  | [] => []
  | (name, v) :: es => (cString name, toSdkValue v) :: toSdkEntries es

end

def toSdkItem (item : ValueMap) : SdkItem :=
  SortedMap.ofEntries (toSdkEntries base64Decode item)

end ToSdk

section FromSdk

variable (base64Encode : List UInt8 → String)

mutual

def fromSdkValue : SdkAttributeValue → Value
  | .STRING s => .S (cString s)
  | .NUMBER n => .N (cString n)
  | .BYTEBUFFER b => .B (cString (base64Encode b))
  | .BOOL boolean => .BOOL boolean
  | .NULLVALUE => .NUL
  | .ATTRIBUTE_LIST l => .L (fromSdkList l)
  | .ATTRIBUTE_MAP m => .M (fromSdkItem m)
  | .STRING_SET ss => .SS (ss.map cString)
  | .NUMBER_SET ns => .NS (ns.map cString)
  | .BYTEBUFFER_SET bs => .BS (bs.map fun b => cString (base64Encode b))

def fromSdkList : List SdkAttributeValue → List Value
  | [] => []
  | v :: vs => fromSdkValue v :: fromSdkList vs

def fromSdkItem : SdkItem → ValueMap
  | [] => []
  | (name, v) :: item => (cString name, fromSdkValue v) :: fromSdkItem item

end

end FromSdk

/-! ### Loops -/

theorem toSdkList_eq (base64Decode : String → List UInt8) (vs : List Value) :
    toSdkList base64Decode vs = vs.map (toSdkValue base64Decode) := by
  induction vs with
  | nil => rfl
  | cons v vs ih => rw [toSdkList, ih, List.map_cons]

theorem toSdkEntries_eq (base64Decode : String → List UInt8) (es : List (String × Value)) :
    toSdkEntries base64Decode es =
      es.map fun e => (cString e.1, toSdkValue base64Decode e.2) := by
  induction es with
  | nil => rfl
  | cons e es ih => rw [toSdkEntries, ih, List.map_cons]

theorem fromSdkList_eq (base64Encode : List UInt8 → String) (vs : List SdkAttributeValue) :
    fromSdkList base64Encode vs = vs.map (fromSdkValue base64Encode) := by
  induction vs with
  | nil => rfl
  | cons v vs ih => rw [fromSdkList, ih, List.map_cons]

theorem fromSdkItem_eq (base64Encode : List UInt8 → String) (item : SdkItem) :
    fromSdkItem base64Encode item =
      item.map fun e => (cString e.1, fromSdkValue base64Encode e.2) := by
  induction item with
  | nil => rfl
  | cons e item ih => rw [fromSdkItem, ih, List.map_cons]

end DdbShell
