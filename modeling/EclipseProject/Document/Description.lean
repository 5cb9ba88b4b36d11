import EclipseProject.Xml

/-!
# The `.project` document

It gives the name that is shown after the import, the builders and the natures. Only the name varies.
-/

namespace EclipseProject.Description

def beforeName : String := Xml.declaration ++ "\n<projectDescription>\n    <name>"

def afterName : String := "</name>
    <comment>
    </comment>
    <projects>
    </projects>
    <buildSpec>
        <buildCommand>
            <name>org.python.pydev.PyDevBuilder</name>
            <arguments>
            </arguments>
        </buildCommand>
        <buildCommand>
            <name>org.eclipse.jdt.core.javabuilder</name>
            <arguments>
            </arguments>
        </buildCommand>
    </buildSpec>
    <natures>
        <nature>org.eclipse.jdt.core.javanature</nature>
        <nature>org.python.pydev.pythonNature</nature>
    </natures>
</projectDescription>"

def document (name : String) : String := beforeName ++ Xml.escape name ++ afterName

end EclipseProject.Description
