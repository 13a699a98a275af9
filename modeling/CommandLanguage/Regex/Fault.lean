/-!
# Faults of regular expressions

What can be wrong with the text of a regular expression, and how that is said.
-/

namespace CommandLanguage.Regex

/-- Why a text is no regular expression. -/
inductive Fault where
  /-- too many layers of groups or operators -/
  | nesting
  /-- two groups of one name -/
  | groupNameTwice
  /-- a group without its end -/
  | groupUnclosed
  /-- the text ends after `(?` -/
  | groupFlagsUnfinished
  /-- an end of a group without its start -/
  | groupUnopened
  /-- a condition on the text around -/
  | lookAround
  /-- a group of flags without any -/
  | flagsEmpty
  /-- the text ends where a group name is expected -/
  | groupNameMissing
  /-- a character that group names do not have -/
  | groupNameInvalid
  /-- the text ends within a group name -/
  | groupNameUnclosed
  /-- a group name of no characters -/
  | groupNameEmpty
  /-- a letter that is no flag -/
  | flagUnknown
  /-- two minus signs among the flags -/
  | flagNegationTwice
  /-- one flag given twice -/
  | flagTwice
  /-- the text ends within the flags -/
  | flagsUnclosed
  /-- a minus sign with no flag after it -/
  | flagNegationDangling
  /-- a count without digits -/
  | countEmpty
  /-- a count that is too large -/
  | countInvalid
  /-- a character in braces that is no hexadecimal digit -/
  | hexBraceDigit
  /-- the text ends before the brace of a hexadecimal number -/
  | hexBraceUnclosed
  /-- braces without hexadecimal digits -/
  | hexBraceEmpty
  /-- a number in braces that is no character -/
  | hexBraceInvalid
  /-- the text ends within a hexadecimal number of fixed length -/
  | hexFixedUnfinished
  /-- a character in a number of fixed length that is no hexadecimal digit -/
  | hexFixedDigit
  /-- a number of fixed length that is no character -/
  | hexFixedInvalid
  /-- the text ends where a hexadecimal number is expected -/
  | hexMissing
  /-- the text ends after a backslash -/
  | escapeUnfinished
  /-- a reference back to a group -/
  | backReference
  /-- a class of characters by property -/
  | propertyClass
  /-- a backslash before a character that has no escaped form -/
  | escapeUnknown
  /-- a repetition sign with nothing to repeat -/
  | repetitionOfNothing
  /-- a repetition count with nothing to repeat -/
  | countOfNothing
  /-- the text ends after the brace of a count -/
  | countUnclosed
  /-- the text ends after the least count -/
  | countLeastUnclosed
  /-- the text ends after the comma of a count -/
  | countCommaUnclosed
  /-- the text ends after the greatest count -/
  | countMostUnclosed
  /-- something else where a count should end -/
  | countEnd
  /-- a least count above the greatest -/
  | countOrder
  /-- the text ends after a member of a bracket expression -/
  | bracketUnclosedAfterItem
  /-- a range of which an end is no single character -/
  | bracketRangeItem
  /-- a member of a bracket expression that is no character -/
  | bracketItem
  /-- the text ends after a dash in a bracket expression -/
  | bracketUnclosedAfterDash
  /-- the text ends after the sign of a negated bracket expression -/
  | bracketUnclosedAfterNegation
  /-- the text ends after a bracket expression that starts with a closing bracket -/
  | bracketUnclosedAfterClosing
  /-- a range whose first character comes after its last -/
  | bracketRangeOrder
  /-- a bracket expression without its end -/
  | bracketUnclosed
  /-- a bracket expression within another -/
  | bracketNested
  /-- an intersection of bracket expressions -/
  | bracketIntersection
  /-- a difference of bracket expressions -/
  | bracketDifference
  /-- a symmetric difference of bracket expressions -/
  | bracketSymmetricDifference
  /-- a word edge in braces that does not end -/
  | wordEdgeUnclosed
  /-- a word edge in braces of an unknown kind -/
  | wordEdgeUnknown
  /-- the text ends after the brace of a word edge -/
  | wordEdgeUnfinished
  deriving DecidableEq, Repr

/-- The wording of a fault. -/
def Fault.message : Fault → String
  | .nesting => "pattern has too much nesting"
  | .groupNameTwice => "duplicate capture group name"
  | .groupUnclosed => "found open group without closing ')'"
  | .groupFlagsUnfinished => "expected closing ')', but got end of pattern"
  | .groupUnopened => "found closing ')' without matching '('"
  | .lookAround => "look-around is not supported"
  | .flagsEmpty => "empty flag directive '(?)' is not allowed"
  | .groupNameMissing => "expected capture group name, but got end of pattern"
  | .groupNameInvalid => "invalid group name"
  | .groupNameUnclosed => "expected end of capture group name, but got end of pattern"
  | .groupNameEmpty => "empty capture group names are not allowed"
  | .flagUnknown => "unrecognized inline flag"
  | .flagNegationTwice => "inline flag negation cannot be repeated"
  | .flagTwice => "duplicate inline flag is not allowed"
  | .flagsUnclosed => "expected ':' or ')' to end inline flags, but got end of pattern"
  | .flagNegationDangling => "inline flags cannot end with negation directive"
  | .countEmpty => "expected decimal number, but found no digits"
  | .countInvalid => "got invalid decimal number"
  | .hexBraceDigit => "expected hexadecimal number in braces, but got non-hex digit"
  | .hexBraceUnclosed => "expected hexadecimal number, but saw end of pattern before closing brace"
  | .hexBraceEmpty => "expected hexadecimal number in braces, but got no digits"
  | .hexBraceInvalid => "got invalid hexadecimal number in braces"
  | .hexFixedUnfinished =>
    "expected fixed length hexadecimal number, but saw end of pattern first"
  | .hexFixedDigit => "expected fixed length hexadecimal number, but got non-hex digit"
  | .hexFixedInvalid => "got invalid fixed length hexadecimal number"
  | .hexMissing => "expected hexadecimal number, but saw end of pattern first"
  | .escapeUnfinished =>
    "saw start of escape sequence, but saw end of pattern before it finished"
  | .backReference => "backreferences are not supported"
  | .propertyClass => "Unicode character classes are not supported"
  | .escapeUnknown => "unrecognized escape sequence"
  | .repetitionOfNothing =>
    "uncounted repetition operator must be applied to a sub-expression"
  | .countOfNothing => "counted repetition operator must be applied to a sub-expression"
  | .countUnclosed => "found unclosed counted repetition operator"
  | .countLeastUnclosed => "found incomplete and unclosed counted repetition operator"
  | .countCommaUnclosed => "found counted repetition operator with a comma that is unclosed"
  | .countMostUnclosed => "found counted repetition with min and max that is unclosed"
  | .countEnd => "expected closing brace for counted repetition, but got something else"
  | .countOrder => "found counted repetition with a min bigger than its max"
  | .bracketUnclosedAfterItem => "non-empty character class has no closing bracket"
  | .bracketRangeItem => "character class ranges must start and end with a single character"
  | .bracketItem => "invalid escape sequence in character class"
  | .bracketUnclosedAfterDash => "non-empty character class has no closing bracket after dash"
  | .bracketUnclosedAfterNegation => "negated character class has no closing bracket"
  | .bracketUnclosedAfterClosing =>
    "character class begins with literal ']' but has no closing bracket"
  | .bracketRangeOrder => "invalid range in character class"
  | .bracketUnclosed => "found unclosed character class"
  | .bracketNested => "nested character classes are not supported"
  | .bracketIntersection => "character class intersection is not supported"
  | .bracketDifference => "character class difference is not supported"
  | .bracketSymmetricDifference => "character class symmetric difference is not supported"
  | .wordEdgeUnclosed =>
    "special word boundary assertion is unclosed or has an invalid character"
  | .wordEdgeUnknown => "special word boundary assertion is unrecognized"
  | .wordEdgeUnfinished => "found start of special word boundary or repetition without an end"

end CommandLanguage.Regex
