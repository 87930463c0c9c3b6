/-!
# Names without a declaration

* `contextVariables`   names that every function or script binds by itself;
* `isBuiltinGlobal`    names of the standard library.
-/

namespace ScopedTree

/-- Names that are bound everywhere without a declaration. -/
def contextVariables : List String := ["arguments", "undefined", "Infinity", "NaN"]

def builtinGlobals : List String :=
  ["Array", "ArrayBuffer", "Atomics", "Boolean", "DataView", "Date", "decodeURI",
   "decodeURIComponent", "encodeURI", "encodeURIComponent", "Error", "escape", "eval", "EvalError",
   "Float32Array", "Float64Array", "Function", "globalThis", "Int16Array", "Int32Array",
   "Int8Array", "Intl", "isFinite", "isNaN", "JSON", "Map", "Math", "Number", "Object",
   "parseFloat", "parseInt", "Promise", "Proxy", "RangeError", "ReferenceError", "Reflect",
   "RegExp", "Set", "SharedArrayBuffer", "String", "Symbol", "SyntaxError", "TypeError",
   "Uint16Array", "Uint32Array", "Uint8Array", "Uint8ClampedArray", "unescape", "URIError",
   "WeakMap", "WeakSet"]

/-- Whether a name belongs to the standard library. -/
def isBuiltinGlobal (name : String) : Bool := builtinGlobals.contains name

end ScopedTree
