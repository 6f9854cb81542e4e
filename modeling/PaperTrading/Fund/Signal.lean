import Mathlib.Data.Rat.Defs
import PaperTrading.Lib.Dict
import PaperTrading.Lib.Text

/-!
# A view on a ticker

`Signal` of `models.py`: what an alpha model says of one ticker on one day. The metadata of a
signal has values of any kind; those the fund reads or writes are flags, texts and numbers.
-/

namespace PaperTrading.Fund

open PaperTrading.Lib

inductive MetaValue where
  | flag (b : Bool)
  | text (t : Text)
  | number (q : ℚ)
deriving DecidableEq

structure Signal where
  modelName : Text
  ticker : Text
  date : Text
  value : ℚ
  reasoning : Option Text
  metadata : Dict Text MetaValue

end PaperTrading.Fund
