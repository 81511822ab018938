import Mathlib.Data.List.Basic
import Mathlib.Data.Option.Basic

/-!
# Self-delimiting codes

A code is self-delimiting when a text that starts with a code word tells where the word ends and which one it is. Such
codes can be put together, and words that are written one after the other can be read back. A word that is not
self-delimiting, such as a number, becomes so by what stands behind it.
-/

namespace Codes

variable {α β γ : Type*}

namespace SelfDelimiting

variable {enc : α → List β} {enc' : γ → List β}

end SelfDelimiting

end Codes
