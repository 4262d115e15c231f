import QData.Constants
/-! The owned object model, and the values the writer accepts: native objects, types
with leaf or attribute traits, sized ranges and `writable` wrappers. -/
set_option autoImplicit false

namespace QData
open Words

/-- The element data of a non-list vector. A double is its 64 bits; a record of a
string vector is `none` for NA. -/
inductive Leaf where
  | logical : List Int32 → Leaf
  | integer : List Int32 → Leaf
  | real : List UInt64 → Leaf
  | complex : List (UInt64 × UInt64) → Leaf
  | string : List (Option Bytes) → Leaf
  | raw : List UInt8 → Leaf
  deriving DecidableEq, Repr

def Leaf.size : Leaf → Nat
  | .logical xs | .integer xs => xs.length
  | .real xs => xs.length
  | .complex xs => xs.length
  | .string xs => xs.length
  | .raw xs => xs.length

def Leaf.type : Leaf → Qstype
  | .logical _ => .logical
  | .integer _ => .integer
  | .real _ => .real
  | .complex _ => .complex
  | .string _ => .character
  | .raw _ => .raw

/-- `qdata::object`; an attribute is a name with its value. -/
inductive Object where
  | nil : Object
  | vector : Leaf → List (Bytes × Object) → Object
  | list : List Object → List (Bytes × Object) → Object

/-- How a leaf type hands its elements over: contiguous `data()`, or `get(i)` one by one. -/
inductive Access where
  | direct | elementwise
  deriving DecidableEq, Repr

/-- What `write_object` is applied to. A `writable` passes through to its target;
`uninitialized` is a default-constructed one. -/
inductive Value where
  | nil : Value
  | vector : Access → Leaf → List (Bytes × Value) → Value
  | list : List Value → List (Bytes × Value) → Value
  | writable : Value → Value
  | uninitialized : Value

mutual
def Object.toValue : Object → Value
  | .nil => .nil
  | .vector leaf attrs => .vector .direct leaf (attrsToValues attrs)
  | .list values attrs => .list (objectsToValues values) (attrsToValues attrs)

def attrsToValues : List (Bytes × Object) → List (Bytes × Value)
  | [] => []
  | (name,x) :: rest => (name,x.toValue) :: attrsToValues rest

def objectsToValues : List Object → List Value
  | [] => []
  | x :: rest => x.toValue :: objectsToValues rest
end

mutual
def Value.toObject : Value → Object
  | .nil => .nil
  | .vector _ leaf attrs => .vector leaf (attrsToObjects attrs)
  | .list values attrs => .list (valuesToObjects values) (attrsToObjects attrs)
  | .writable v => v.toObject
  | .uninitialized => .nil

def attrsToObjects : List (Bytes × Value) → List (Bytes × Object)
  | [] => []
  | (name,v) :: rest => (name,v.toObject) :: attrsToObjects rest

def valuesToObjects : List Value → List Object
  | [] => []
  | v :: rest => v.toObject :: valuesToObjects rest
end

mutual
theorem toObject_toValue : (x : Object) → x.toValue.toObject = x
  | .nil => rfl
  | .vector leaf attrs => by
      simp [Object.toValue,Value.toObject,attrsToObjects_attrsToValues attrs]
  | .list values attrs => by
      simp [Object.toValue,Value.toObject,attrsToObjects_attrsToValues attrs,
        valuesToObjects_objectsToValues values]

theorem attrsToObjects_attrsToValues : (attrs : List (Bytes × Object)) →
    attrsToObjects (attrsToValues attrs) = attrs
  | [] => rfl
  | (name,x) :: rest => by
      simp [attrsToValues,attrsToObjects,toObject_toValue x,attrsToObjects_attrsToValues rest]

theorem valuesToObjects_objectsToValues : (values : List Object) →
    valuesToObjects (objectsToValues values) = values
  | [] => rfl
  | x :: rest => by
      simp [objectsToValues,valuesToObjects,toObject_toValue x,
        valuesToObjects_objectsToValues rest]
end

mutual
/-- Nesting depth: one per object along list elements and attribute values; a wrapper
counts nothing. -/
def Value.depth : Value → Nat
  | .nil => 1
  | .vector _ _ attrs => 1+attrsDepth attrs
  | .list values attrs => 1+max (attrsDepth attrs) (valuesDepth values)
  | .writable v => v.depth
  | .uninitialized => 0

def attrsDepth : List (Bytes × Value) → Nat
  | [] => 0
  | (_,v) :: rest => max v.depth (attrsDepth rest)

def valuesDepth : List Value → Nat
  | [] => 0
  | v :: rest => max v.depth (valuesDepth rest)
end

def Leaf.StringsFit : Leaf → Prop
  | .string records => ∀ s, some s ∈ records → s.length ≤ maxRCompatibleStringLength
  | _ => True

mutual
/-- Everything the writer checks apart from depth: vector and list lengths, attribute
counts, names, strings, and that every wrapper has a target. -/
def Value.WithinLimits : Value → Prop
  | .nil => True
  | .vector _ leaf attrs =>
      leaf.size ≤ maxRCompatibleVectorLength ∧ leaf.StringsFit ∧
      attrs.length ≤ maxRCompatibleAttrCount ∧ AttrsWithinLimits attrs
  | .list values attrs =>
      values.length ≤ maxRCompatibleVectorLength ∧
      attrs.length ≤ maxRCompatibleAttrCount ∧
      AttrsWithinLimits attrs ∧ ValuesWithinLimits values
  | .writable v => v.WithinLimits
  | .uninitialized => False

def AttrsWithinLimits : List (Bytes × Value) → Prop
  | [] => True
  | (name,v) :: rest =>
      name.length ≤ maxRCompatibleStringLength ∧ v.WithinLimits ∧ AttrsWithinLimits rest

def ValuesWithinLimits : List Value → Prop
  | [] => True
  | v :: rest => v.WithinLimits ∧ ValuesWithinLimits rest
end

def Object.depth (x : Object) : Nat := x.toValue.depth

def Object.WithinLimits (x : Object) : Prop := x.toValue.WithinLimits

def int32Bytes (v : Int32) : Bytes := toBytes 4 v.toUInt32.toNat
def doubleBytes (v : UInt64) : Bytes := toBytes 8 v.toNat
def complexBytes (v : UInt64 × UInt64) : Bytes := doubleBytes v.1 ++ doubleBytes v.2
def byteBytes (v : UInt8) : Bytes := [v]

def int32OfBytes (bs : Bytes) : Int32 := (UInt32.ofNat (toNat bs)).toInt32
def doubleOfBytes (bs : Bytes) : UInt64 := UInt64.ofNat (toNat bs)
def complexOfBytes (bs : Bytes) : UInt64 × UInt64 :=
  (doubleOfBytes (bs.take 8),doubleOfBytes (bs.drop 8))
def byteOfBytes (bs : Bytes) : UInt8 := bs.headD 0

@[simp] theorem length_int32Bytes (v : Int32) : (int32Bytes v).length = 4 := by
  simp [int32Bytes]

@[simp] theorem length_doubleBytes (v : UInt64) : (doubleBytes v).length = 8 := by
  simp [doubleBytes]

@[simp] theorem length_complexBytes (v : UInt64 × UInt64) : (complexBytes v).length = 16 := by
  simp [complexBytes]

@[simp] theorem length_byteBytes (v : UInt8) : (byteBytes v).length = 1 := rfl

theorem int32OfBytes_bytes (v : Int32) : int32OfBytes (int32Bytes v) = v := by
  have h : v.toUInt32.toNat < 256 ^ 4 := v.toUInt32.toNat_lt
  simp [int32OfBytes,int32Bytes,toNat_toBytes h]

theorem doubleOfBytes_bytes (v : UInt64) : doubleOfBytes (doubleBytes v) = v := by
  have h : v.toNat < 256 ^ 8 := v.toNat_lt
  simp [doubleOfBytes,doubleBytes,toNat_toBytes h]

theorem complexOfBytes_bytes (v : UInt64 × UInt64) : complexOfBytes (complexBytes v) = v := by
  have ht : (complexBytes v).take 8 = doubleBytes v.1 := by
    rw [complexBytes,← length_doubleBytes v.1,List.take_left]
  have hd : (complexBytes v).drop 8 = doubleBytes v.2 := by
    rw [complexBytes,← length_doubleBytes v.1,List.drop_left]
  simp [complexOfBytes,ht,hd,doubleOfBytes_bytes]

theorem byteOfBytes_bytes (v : UInt8) : byteOfBytes (byteBytes v) = v := rfl

end QData
