import Deadwood.Dialect.Java.Grammar
import Deadwood.Dialect.Kotlin.Grammar

/-!
# Trees by grammars

The library's own grammars as the parser for Java and Kotlin. They read programs without errors in them.
-/

namespace Deadwood

instance : TreeReader := ⟨Java.trees, Kotlin.trees⟩

end Deadwood
