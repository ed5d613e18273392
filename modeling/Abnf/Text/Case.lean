/-! Letter case. Names are equal if they differ only in the case of ASCII letters. -/

namespace Abnf

/-- A name with its ASCII capitals made small. Two names are the same name if their folded forms are
    equal. --/
def foldCase (name : String) : String := name.map Char.toLower

/-- Whether two spellings are of one name. --/
def sameName (a b : String) : Bool := foldCase a == foldCase b

end Abnf
