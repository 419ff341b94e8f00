import Hyprwire.Wire.Generic
import Hyprwire.Wire.Control

/-!
# Protocols and wire objects

A protocol lists its kinds of objects, the first of which is made by a bind. Each
kind has a list of methods for either direction, and a method is named by its place
in the list. The server and the client each hold a list of implementations.

A wire object is what the two ends share of an object: its identifier, its version,
the sequence it was asked for with, its kind, and the functions that listen to its
methods.
-/

set_option autoImplicit false

namespace Hyprwire.Object

open Cpp Wire

/-- The bytes of a text of the source. -/
def text (message : String) : Str := message.toUTF8.toList

/-- `SMethod`. The magics in `params` name the type of each parameter; the one of an
array is followed by the type of its elements. -/
structure SMethod where
  params : List UInt8
  returnsType : Str := []
  since : UInt32 := 0
  deriving DecidableEq, Repr

/-- `IProtocolObjectSpec`. -/
structure IProtocolObjectSpec where
  objectName : Str
  c2s : List SMethod
  s2c : List SMethod
  deriving DecidableEq, Repr

/-- `IProtocolSpec`. -/
structure IProtocolSpec where
  specName : Str
  specVer : UInt32
  objects : List IProtocolObjectSpec
  deriving DecidableEq, Repr

/-- A function the application has registered. -/
abbrev Callback := Nat

/-- `SServerObjectImplementation`. -/
structure SServerObjectImplementation where
  objectName : Str
  onBind : Option Callback := none
  deriving DecidableEq, Repr

/-- `IProtocolServerImplementation`. -/
structure IProtocolServerImplementation where
  protocol : IProtocolSpec
  implementation : List SServerObjectImplementation
  deriving DecidableEq, Repr

/-- `IProtocolClientImplementation`. -/
structure IProtocolClientImplementation where
  protocol : IProtocolSpec
  deriving DecidableEq, Repr

/-- `IWireObject`. The specification is absent from an object whose creation failed. -/
structure IWireObject where
  listeners : List (Option Callback) := []
  id : UInt32 := 0
  version : UInt32 := 0
  seq : UInt32 := 1
  protocolName : Str := []
  spec : Option IProtocolObjectSpec := none
  deriving DecidableEq, Repr

namespace IWireObject

/-- `listen`: the table grows up to the method. -/
def listen (object : IWireObject) (id : UInt32) (fn : Option Callback) : IWireObject :=
  { object with
    listeners := (object.listeners ++
      List.replicate (id.toNat + 1 - object.listeners.length) none).set id.toNat fn }

end IWireObject

/-- Putting an object in another's place does not change what the two have in common. -/
theorem map_set_same {β : Type} {f : IWireObject → β} {objects : List IWireObject} {index : Nat}
    {object object' : IWireObject} (has : objects[index]? = some object)
    (same : f object' = f object) : (objects.set index object').map f = objects.map f := by
  have mapped : (objects.map f)[index]? = some (f object') := by
    rw [List.getElem?_map, has, same]
    rfl
  obtain ⟨inside, is⟩ := List.getElem?_eq_some_iff.mp mapped
  rw [List.map_set, ← is]
  exact List.set_getElem_self inside

end Hyprwire.Object
