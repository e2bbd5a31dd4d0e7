import Timetable.Agenda
import Timetable.Language.Token
import Timetable.Text.Trie

namespace Timetable

open Text (Trie)

namespace Vocabulary

def words : List String :=
  Directive.all.map (·.name) ++ Weekday.all.map (·.fullName) ++ Weekday.all.map (·.shortName)

def trie : Trie :=
  Trie.ofWords (words.map (·.toList))

def kind? (word : List Char) : Option TokenKind :=
  if word.map Char.toLower = Directive.allow.name.toList then some .allow
  else if word.map Char.toLower = Directive.forbid.name.toList then some .forbid
  else (Weekday.ofName? word).map fun _ => .dayOfWeek

end Vocabulary

end Timetable
