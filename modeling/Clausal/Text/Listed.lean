/-! # Lists of texts -/

namespace Clausal.Text

/-- Texts one after the other, a comma and a blank between two. -/
def listed (texts : List (List Char)) : List Char := [',', ' '].intercalate texts

def sorted (texts : List String) : List String := texts.mergeSort fun s t => decide (s ≤ t)

end Clausal.Text
