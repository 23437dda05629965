import KeepRules.Configuration

/-! # A typical configuration

The text of an application's configuration, and the configuration that it stands for. -/

set_option autoImplicit false

namespace KeepRules.Sample

def fixtureText : String :=
  "-injars app.jar(!META-INF/**)\n" ++
  "-outjars app-shrunk.jar\n" ++
  "-libraryjars rt.jar\n" ++
  "-keepattributes SourceFile,LineNumberTable\n" ++
  "-printmapping app.map\n" ++
  "-dontnote\n" ++
  "\n" ++
  "# Application entry point\n" ++
  "-keep public class com.example.Main \x7b\n" ++
  "    public static void main(java.lang.String[]);\n" ++
  "\x7d\n" ++
  "\n" ++
  "-keepclasseswithmembernames class * \x7b\n" ++
  "    native <methods>;\n" ++
  "\x7d\n" ++
  "\n" ++
  "-keepclassmembers class * implements java.io.Serializable \x7b\n" ++
  "    static final long serialVersionUID;\n" ++
  "    <init>();\n" ++
  "\x7d\n"

def mainRule : KeepRule where
  access := { required := .singleton .accPublic }
  className := some "com/example/Main"
  intent := .keep
  comments := some " Application entry point"
  methods :=
    [{ access := { required := .ofList [.accPublic, .accStatic] }
       name := some "main"
       descriptor := some "([Ljava/lang/String;)V" }]

def nativeRule : KeepRule where
  className := none
  intent := .keepClassesWithMemberNames
  methods := [{ access := { required := .singleton .accNative } }]

def serializableRule : KeepRule where
  className := none
  extendsName := some "java/io/Serializable"
  intent := .keepClassMembers
  fields :=
    [{ access := { required := .ofList [.accStatic, .accFinal] }
       name := some "serialVersionUID"
       descriptor := some "J" }]
  methods := [{ access := {}, name := some constructorName, descriptor := some "()V" }]

def fixture : Configuration where
  inJars := some [{ name := "app.jar", filter := some "!META-INF/**" }]
  outJars := some [{ name := "app-shrunk.jar" }]
  libraryJars := some [{ name := "rt.jar" }]
  keepAttributes := some ["SourceFile", "LineNumberTable"]
  printMapping := some "app.map"
  note := false
  keep := [mainRule, nativeRule, serializableRule]

end KeepRules.Sample
